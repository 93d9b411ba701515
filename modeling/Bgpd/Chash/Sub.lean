import Bgpd.Chash.Meta

/-!
# Sub Tables

The sub tables of `chash.c`: 512 groups of seven slots with open addressing. A lookup starts at the
group of the hash and goes on while `CH_EVER_FULL` is set. An insertion marks the full groups it
passes and takes the first free slot. A sub table is split in two by inserting its elements into two
new ones, and two are merged into a new one in the same way.

The functions have a fault where the C code would never return or read a NULL element.

## Main definitions

- `chSubInsert`, `chSubRemove`, `chSubFind`, `chSubLocate`
- `chSubSplit`, `chSubMerge`
- `chSubFirst`, `chSubNext`
-/

namespace Bgpd.Chash

/-! ## Data -/

def chMaxLoad : ℕ := 875

def chH2Size : ℕ := 512

/-- `CH_H1_BITS` -/
def chH1Bits : ℕ := 64 - 9 - 8

/-- `struct ch_type`; `t_counts` has statistics only. -/
structure ChType (α : Type) where
  tEqual : α → α → Bool
  tHash : α → BitVec 64

/-- `struct ch_group`: `cg_data` has seven elements. -/
structure ChGroup (α : Type) where
  cgMeta : BitVec 64
  cgData : ℕ → Option α

/-- A sub table, `ce_table` and `ce_meta` of `struct ch_ext`. The table has `CH_H2_SIZE` groups. -/
structure ChSub (α : Type) where
  ceTable : ℕ → ChGroup α
  csNumElm : ℕ
  csNumTomb : ℕ
  csNumEverFull : ℕ
  csLocalLevel : ℕ

inductive Fault
  /-- A loop over the groups of a sub table that does not end. -/
  | loop
  /-- `t_equal` or `t_hash` of NULL. -/
  | null
  /-- A sub table that was freed. -/
  | freed
  /-- An index outside the extendible table. -/
  | bounds
  deriving DecidableEq

variable {α : Type}

/-- `ch_sub_alloc`: a sub table from `calloc`, with the `cs_local_level` that it is given next. -/
def chSubAlloc (level : ℕ) : ChSub α :=
  ⟨fun _ => ⟨0, fun _ => none⟩, 0, 0, 0, level⟩

/-- `x++` of a `uint32_t` -/
def inc32 (x : ℕ) : ℕ := (x + 1) % 2 ^ 32

/-- `x--` of a `uint32_t` -/
def dec32 (x : ℕ) : ℕ := (x + (2 ^ 32 - 1)) % 2 ^ 32

/-- `CH_H1` -/
def chH1 (h : BitVec 64) (l : ℕ) : ℕ := if l = 0 then 0 else (h >>> (64 - l)).toNat

/-- `CH_H2` -/
def chH2 (h : BitVec 64) : ℕ := ((h >>> 8) &&& 0x1ff).toNat

/-- `ch_sub_loadfactor` -/
def chSubLoadfactor (s : ChSub α) : ℕ :=
  (s.csNumElm + s.csNumTomb) % 2 ^ 32 * 1000 % 2 ^ 32 / (chH2Size * 7)

/-- `ch_sub_fillfactor` -/
def chSubFillfactor (s : ChSub α) : ℕ := s.csNumElm * 1000 % 2 ^ 32 / (chH2Size * 7)

/-! ## Lookup -/

/-- The candidates of a group are compared one after the other. -/
def candidate (eq : α → Bool) (g : ChGroup α) : List ℕ → Except Fault (Option (ℕ × α))
  | [] => .ok none
  | i :: slots =>
    match g.cgData i with
    | none => .error .null
    | some x => if eq x then .ok (some (i, x)) else candidate eq g slots

/-- The loop of the lookups, with the group and the slot of the element it finds. After
    `CH_H2_SIZE` groups without an end it is back at the first group, and nothing has changed. -/
def probe (eq : α → Bool) (table : ℕ → ChGroup α) (mask : BitVec 64) :
    ℕ → ℕ → Except Fault (Option (ℕ × ℕ × α))
  | 0, _ => .error .loop
  | fuel + 1, bucket => do
    match ← candidate eq (table (bucket % chH2Size))
        (slotsOf (chMetaLocate (table (bucket % chH2Size)).cgMeta mask)) with
    | some (i, x) => return some (bucket % chH2Size, i, x)
    | none =>
      if chMetaLocate (table (bucket % chH2Size)).cgMeta mask &&& chEverFull = 0 then return none
      else probe eq table mask fuel (bucket + 1)

/-- The lookups of the elements with hash `h`. -/
def chSubProbe (s : ChSub α) (h : BitVec 64) (eq : α → Bool) :
    Except Fault (Option (ℕ × ℕ × α)) :=
  probe eq s.ceTable (chMask h) chH2Size (chH2 h)

/-- `ch_sub_locate`; `eq` has its argument `arg`. -/
def chSubLocate (s : ChSub α) (h : BitVec 64) (eq : α → Bool) : Except Fault (Option α) := do
  return (← chSubProbe s h eq).map fun found => found.2.2

/-- `ch_sub_find` -/
def chSubFind (T : ChType α) (s : ChSub α) (h : BitVec 64) (needle : α) :
    Except Fault (Option α) :=
  chSubLocate s h fun x => T.tEqual x needle

/-! ## Removal -/

/-- A change of one group. -/
def ChSub.setGroup (s : ChSub α) (b : ℕ) (g : ChGroup α) : ChSub α :=
  { s with ceTable := Function.update s.ceTable b g }

/-- The slot is freed. -/
def ChGroup.clear (g : ChGroup α) (i : ℕ) : ChGroup α where
  cgMeta := cgMetaClearFlags (cgMetaSetHash g.cgMeta i 0) ((1 : BitVec 8) <<< i)
  cgData := Function.update g.cgData i none

/-- The element of a slot is removed. -/
def ChSub.take (s : ChSub α) (b i : ℕ) : ChSub α :=
  { s.setGroup b ((s.ceTable b).clear i) with
    csNumTomb := if everFull (s.ceTable b).cgMeta then inc32 s.csNumTomb else s.csNumTomb
    csNumElm := dec32 s.csNumElm }

/-- `ch_sub_remove` -/
def chSubRemove (T : ChType α) (s : ChSub α) (h : BitVec 64) (needle : α) :
    Except Fault (ChSub α × Option α) := do
  match ← chSubProbe s h fun x => T.tEqual x needle with
  | none => return (s, none)
  | some (b, i, x) => return (s.take b i, some x)

/-! ## Insertion -/

/-- A full group is marked. -/
def ChSub.mark (s : ChSub α) (b : ℕ) : ChSub α :=
  { s.setGroup b
      { s.ceTable b with cgMeta := cgMetaSetFlags (s.ceTable b).cgMeta chEverFull } with
    csNumEverFull :=
      if cgMetaCheckFlags (s.ceTable b).cgMeta chEverFull then s.csNumEverFull
      else inc32 s.csNumEverFull }

/-- The element is written into the slot. -/
def ChGroup.put (g : ChGroup α) (i : ℕ) (h : BitVec 64) (elm : α) : ChGroup α where
  cgMeta := cgMetaSetFlags (cgMetaSetHash g.cgMeta i (h &&& 0xff)) ((1 : BitVec 8) <<< i)
  cgData := Function.update g.cgData i (some elm)

/-- The new element takes the slot. If `CH_EVER_FULL` is set then it was a tombstone. -/
def ChSub.place (s : ChSub α) (b i : ℕ) (h : BitVec 64) (elm : α) : ChSub α :=
  { s.setGroup b ((s.ceTable b).put i h elm) with
    csNumTomb :=
      if cgMetaCheckFlags ((s.ceTable b).put i h elm).cgMeta chEverFull then dec32 s.csNumTomb
      else s.csNumTomb
    csNumElm := inc32 s.csNumElm }

/-- The first free slot of a group, `ins_g` and `ins_i`. -/
def firstEmpty (s : ChSub α) (b : ℕ) : ℕ × ℕ := (b, ffs (empties (s.ceTable b).cgMeta) - 1)

/-- The loop of `ch_sub_insert`: the element that is there already, or the slot to take. -/
def insertLoop (eq : α → Bool) (mask : BitVec 64) :
    ℕ → ℕ → ChSub α → Option (ℕ × ℕ) → Except Fault (ChSub α × (α ⊕ ℕ × ℕ))
  | 0, _, _, _ => .error .loop
  | fuel + 1, bucket, s, ins => do
    -- first check if object already present
    match ← candidate eq (s.ceTable (bucket % chH2Size))
        (slotsOf (chMetaLocate (s.ceTable (bucket % chH2Size)).cgMeta mask)) with
    | some (_, x) => return (s, .inl x)
    | none =>
      -- at the same time remember the first empty spot
      if empties (s.ceTable (bucket % chH2Size)).cgMeta = 0 then
        -- overflow, mark group as full
        insertLoop eq mask fuel (bucket + 1) (s.mark (bucket % chH2Size)) ins
      -- check if lookup is finished and obj is not present
      else if cgMetaCheckFlags (s.ceTable (bucket % chH2Size)).cgMeta chEverFull then
        insertLoop eq mask fuel (bucket + 1) s
          (some (ins.getD (firstEmpty s (bucket % chH2Size))))
      else return (s, .inr (ins.getD (firstEmpty s (bucket % chH2Size))))

/-- `ch_sub_insert` -/
def chSubInsert (T : ChType α) (s : ChSub α) (h : BitVec 64) (elm : α) :
    Except Fault (ChSub α × Option α) := do
  match ← insertLoop (fun x => T.tEqual x elm) (chMask h) chH2Size (chH2 h) s none with
  | (s, .inl x) => return (s, some x)
  | (s, .inr (b, i)) => return (s.place b i h elm, none)

/-! ## Split and merge -/

/-- The slots in use of a group. -/
def usedSlots (cgMeta : BitVec 64) : List ℕ :=
  (List.range 7).filter fun i => (cgMetaGetFlags cgMeta &&& chSlotMask) &&&
    ((1 : BitVec 8) <<< i) ≠ 0

/-- The elements of a group, in the order of the slots. -/
def ChGroup.elms (g : ChGroup α) : List (Option α) := (usedSlots g.cgMeta).map g.cgData

/-- The loop of `ch_sub_split`. An element that is there already makes it fail. -/
def splitLoop (T : ChType α) (level : ℕ) :
    List (Option α) → ChSub α → ChSub α → Except Fault (Option (ChSub α × ChSub α))
  | [], low, high => .ok (some (low, high))
  | none :: _, _, _ => .error .null
  | some x :: elms, low, high =>
    if chH1 (T.tHash x) level &&& 1 ≠ 0 then do
      let (high, v) ← chSubInsert T high (T.tHash x) x
      if v.isSome then return none else splitLoop T level elms low high
    else do
      let (low, v) ← chSubInsert T low (T.tHash x) x
      if v.isSome then return none else splitLoop T level elms low high

/-- `ch_sub_split` -/
def chSubSplit (T : ChType α) (src : ChSub α) : Except Fault (Option (ChSub α × ChSub α)) :=
  splitLoop T (src.csLocalLevel + 1) ((List.range chH2Size).flatMap fun n => (src.ceTable n).elms)
    (chSubAlloc (src.csLocalLevel + 1)) (chSubAlloc (src.csLocalLevel + 1))

/-- The loop of `ch_sub_merge`, over the elements that `ch_sub_merge_one` inserts. -/
def mergeLoop (T : ChType α) :
    List (Option α) → ChSub α → Except Fault (Option (ChSub α))
  | [], s => .ok (some s)
  | none :: _, _ => .error .null
  | some x :: elms, s => do
    let (s, v) ← chSubInsert T s (T.tHash x) x
    if v.isSome then return none else mergeLoop T elms s

/-- `ch_sub_merge` -/
def chSubMerge (T : ChType α) (src buddy : ChSub α) : Except Fault (Option (ChSub α)) :=
  mergeLoop T
    ((List.range chH2Size).flatMap fun n => (src.ceTable n).elms ++ (buddy.ceTable n).elms)
    (chSubAlloc (src.csLocalLevel - 1))

/-! ## Iteration -/

/-- `struct ch_iter` -/
structure ChIter where
  ciExtIdx : ℕ
  ciSetIdx : ℕ
  ciGrpIdx : ℕ
  deriving DecidableEq

/-- The iterator stops at the first slot of `elms` in group `n`. -/
def iterAt (s : ChSub α) (it : ChIter) (n : ℕ) (elms : BitVec 8) : ChIter × Option α :=
  ({ it with ciSetIdx := n, ciGrpIdx := ffs elms }, (s.ceTable n).cgData (ffs elms - 1))

/-- The loop of `ch_sub_first`, over the groups from `n`. -/
def firstLoop (s : ChSub α) : ℕ → ℕ → ChIter → ChIter × Option α
  | 0, n, it => ({ it with ciSetIdx := n }, none)
  | fuel + 1, n, it =>
    if cgMetaGetFlags (s.ceTable n).cgMeta &&& chSlotMask = 0 then firstLoop s fuel (n + 1) it
    else iterAt s it n (cgMetaGetFlags (s.ceTable n).cgMeta &&& chSlotMask)

/-- `ch_sub_first` -/
def chSubFirst (s : ChSub α) (it : ChIter) : ChIter × Option α := firstLoop s chH2Size 0 it

/-- The loop of `ch_sub_next`, over the groups from `n`. -/
def nextLoop (s : ChSub α) : ℕ → ℕ → ChIter → ChIter × Option α
  | 0, n, it => ({ it with ciSetIdx := n }, none)
  | fuel + 1, n, it =>
    if (cgMetaGetFlags (s.ceTable n).cgMeta &&& chSlotMask) &&&
      (chSlotMask <<< it.ciGrpIdx) = 0 then
      nextLoop s fuel (n + 1) { it with ciGrpIdx := 0 }
    else iterAt s it n
      ((cgMetaGetFlags (s.ceTable n).cgMeta &&& chSlotMask) &&& (chSlotMask <<< it.ciGrpIdx))

/-- `ch_sub_next` -/
def chSubNext (s : ChSub α) (it : ChIter) : ChIter × Option α :=
  nextLoop s (chH2Size - it.ciSetIdx) it.ciSetIdx it

end Bgpd.Chash
