import Bgpd.Chash.Sub

/-!
# The Hash Table

The extendible hash table of `chash.c`. The upper `ch_level` bits of a hash are an index into
`ch_exts`, whose entries point to sub tables. A sub table with local level `l` stands in all entries
that have the same upper `l` bits. A sub table that is loaded too much is split in two with one bit
more, after the index was doubled when it has to be. After a removal two buddies are merged as long
as they are nearly empty.

Sub tables have names, as they are compared by their addresses, and the heap knows which of them are
not yet freed. The results of `calloc` and `reallocarray` are arguments.

## Main definitions

- `chInsert`, `chRemove`, `chFind`, `chLocate`
- `chFirst`, `chNext`
-/

namespace Bgpd.Chash

variable {α : Type}

/-! ## Data -/

/-- `struct ch_table`, and the sub tables that exist. `next` is the name of the next one. -/
structure ChTable (α : Type) where
  chLevel : ℕ
  chExts : Option (ℕ → ℕ)
  ccNumElm : ℕ
  subs : ℕ → Option (ChSub α)
  next : ℕ

/-- `CH_INITIALIZER` -/
def chInitializer : ChTable α := ⟨0, none, 0, fun _ => none, 0⟩

/-- `ch_exts[idx]` -/
def extAt (t : ChTable α) (exts : ℕ → ℕ) (idx : ℕ) : Except Fault (ℕ × ChSub α) :=
  if 2 ^ t.chLevel ≤ idx then .error .bounds
  else
    match t.subs (exts idx) with
    | none => .error .freed
    | some s => .ok (exts idx, s)

/-- A sub table is changed in place. -/
def ChTable.setSub (t : ChTable α) (id : ℕ) (s : ChSub α) : ChTable α :=
  { t with subs := Function.update t.subs id (some s) }

/-- A new sub table; its name is `next`. -/
def ChTable.newSub (t : ChTable α) (s : ChSub α) : ChTable α :=
  { t with subs := Function.update t.subs t.next (some s), next := t.next + 1 }

/-- `ch_sub_free` -/
def chSubFree (t : ChTable α) (id : ℕ) : ChTable α :=
  { t with subs := Function.update t.subs id none }

/-- `x++` of a `uint64_t` -/
def inc64 (x : ℕ) : ℕ := (x + 1) % 2 ^ 64

/-- `x--` of a `uint64_t` -/
def dec64 (x : ℕ) : ℕ := (x + (2 ^ 64 - 1)) % 2 ^ 64

/-! ## The extendible table -/

/-- The loop of `ch_table_resize`, from the end: every entry is written twice. -/
def resizeLoop : ℕ → (ℕ → ℕ) → ℕ → ℕ
  | 0, exts => exts
  | idx + 1, exts =>
    resizeLoop idx (Function.update (Function.update exts (idx * 2) (exts idx)) (idx * 2 + 1)
      (Function.update exts (idx * 2) (exts idx) idx))

/-- `ch_table_resize`. The first table has two entries that are not yet set. -/
def chTableResize (realloc : Bool) (t : ChTable α) : Option (ChTable α) :=
  if t.chLevel + 1 ≥ chH1Bits then none
  else if realloc then
    match t.chExts with
    | none => some { t with chLevel := t.chLevel + 1, chExts := some fun _ => t.next }
    | some exts =>
      some { t with
        chLevel := t.chLevel + 1, chExts := some (resizeLoop (2 ^ t.chLevel) exts) }
  else none

/-- `ch_table_fill` for the sub table `id` with this `cs_local_level`. -/
def chTableFill (t : ChTable α) (exts : ℕ → ℕ) (idx id localLevel : ℕ) :
    Except Fault (ChTable α) :=
  if t.chLevel < localLevel ∨ 2 ^ t.chLevel < (idx + 1) * 2 ^ (t.chLevel - localLevel) then
    .error .bounds
  else .ok { t with
    chExts := some fun k =>
      if idx * 2 ^ (t.chLevel - localLevel) ≤ k ∧ k < (idx + 1) * 2 ^ (t.chLevel - localLevel)
      then id else exts k }

/-- The entries of a table that has some. -/
def ChTable.exts (t : ChTable α) : ℕ → ℕ := t.chExts.getD fun _ => t.next

/-- The new sub tables take the place of the old one. -/
def growInto (t : ChTable α) (h : BitVec 64) (id : ℕ) (s low high : ChSub α) :
    Except Fault (ChTable α) := do
  -- the index of the old sub table, with one bit more
  let t₁ ← chTableFill ((t.newSub low).newSub high) t.exts (chH1 h s.csLocalLevel <<< 1) t.next
    low.csLocalLevel
  let t₂ ← chTableFill t₁ t₁.exts (chH1 h s.csLocalLevel <<< 1 ||| 1) (t.next + 1)
    high.csLocalLevel
  return chSubFree t₂ id

/-- `ch_table_grow`, and if it succeeds. -/
def chTableGrow (T : ChType α) (mem : ℕ → Bool) (t : ChTable α) (h : BitVec 64) (id : ℕ)
    (s : ChSub α) : Except Fault (ChTable α × Bool) :=
  -- check if the extendible hashing table needs to grow
  match if s.csLocalLevel = t.chLevel then chTableResize (mem 2) t else some t with
  | none => .ok (t, false)
  | some t =>
    if mem 3 = false ∨ mem 4 = false then .ok (t, false)
    else do
      match ← chSubSplit T s with
      | none => return (t, false)
      | some (low, high) => return (← growInto t h id s low high, true)

/-- The merged sub table takes the place of the old one and its buddy. -/
def compactInto (t : ChTable α) (h : BitVec 64) (id buddy : ℕ) (s : ChSub α) :
    Except Fault (ChTable α) :=
  chTableFill (chSubFree (chSubFree (t.newSub s) buddy) id) t.exts (chH1 h s.csLocalLevel) t.next
    s.csLocalLevel

/-- `ch_table_compact` with `ch_table_buddy`; `none` if no compaction is possible. -/
def chTableCompact (T : ChType α) (alloc : Bool) (t : ChTable α) (h : BitVec 64) (id : ℕ)
    (s : ChSub α) : Except Fault (Option (ChTable α)) :=
  -- the single root table can't be merged
  if s.csLocalLevel = 0 then .ok none
  else do
    let (buddy, b) ← extAt t t.exts
      (chH1 h t.chLevel ^^^ 2 ^ (t.chLevel - s.csLocalLevel))
    -- can only merge buddies at same level
    if b.csLocalLevel ≠ s.csLocalLevel then return none
    else if chSubFillfactor s + chSubFillfactor b > chMaxLoad * 2 / 3 then return none
    else if alloc = false then return none
    else
      match ← chSubMerge T s b with
      | none => return none
      | some s' => return some (← compactInto t h id buddy s')

/-! ## The public functions -/

/-- `_ch_init`, and if it succeeds. -/
def chInit (mem : ℕ → Bool) (t : ChTable α) : Except Fault (ChTable α × Bool) :=
  if mem 0 then
    match chTableResize (mem 1) ({ t with chLevel := 0, ccNumElm := 0 }.newSub (chSubAlloc 0)) with
    | none =>
      .ok (chSubFree ({ t with chLevel := 0, ccNumElm := 0 }.newSub (chSubAlloc 0)) t.next, false)
    | some t₁ => do return (← chTableFill t₁ t₁.exts 0 t.next 0, true)
  else .ok ({ t with chLevel := 0, ccNumElm := 0 }, false)

/-- The result of `_ch_insert`: `CH_INS_FAILED`, the element that is there already, or NULL. -/
inductive InsResult (α : Type)
  | failed
  | found (elm : α)
  | new

/-- `_ch_insert` into a table that exists and has room. -/
def insertInto (T : ChType α) (t : ChTable α) (h : BitVec 64) (elm : α) :
    Except Fault (ChTable α × InsResult α) := do
  let (id, s) ← extAt t t.exts (chH1 h t.chLevel)
  let (s, v) ← chSubInsert T s h elm
  match v with
  | none => return ({ t.setSub id s with ccNumElm := inc64 t.ccNumElm }, .new)
  | some x => return (t.setSub id s, .found x)

/-- `_ch_insert` into a table that exists. -/
def insertGrow (T : ChType α) (mem : ℕ → Bool) (t : ChTable α) (h : BitVec 64) (elm : α) :
    Except Fault (ChTable α × InsResult α) := do
  let (id, s) ← extAt t t.exts (chH1 h t.chLevel)
  if chSubLoadfactor s ≥ chMaxLoad then
    let (t, grown) ← chTableGrow T mem t h id s
    if grown then insertInto T t h elm else return (t, .failed)
  else insertInto T t h elm

/-- `_ch_insert` -/
def chInsert (T : ChType α) (mem : ℕ → Bool) (t : ChTable α) (h : BitVec 64) (elm : α) :
    Except Fault (ChTable α × InsResult α) :=
  if t.chExts.isNone then do
    let (t, done) ← chInit mem t
    if done then insertGrow T mem t h elm else return (t, .failed)
  else insertGrow T mem t h elm

/-- The loop of `_ch_remove`; every compaction takes a bit off the local level. -/
def compactLoop (T : ChType α) (mem : ℕ → Bool) (h : BitVec 64) :
    ℕ → ChTable α → ℕ → ChSub α → Except Fault (ChTable α)
  | 0, _, _, _ => .error .loop
  | fuel + 1, t, id, s =>
    if chSubFillfactor s ≤ chMaxLoad / 4 then do
      match ← chTableCompact T (mem fuel) t h id s with
      | none => return t
      | some t =>
        -- refetch data after compaction
        let (id, s) ← extAt t t.exts (chH1 h t.chLevel)
        compactLoop T mem h fuel t id s
    else .ok t

/-- The end of `_ch_remove`, for the result of `ch_sub_remove`. -/
def removeEnd (T : ChType α) (mem : ℕ → Bool) (t : ChTable α) (h : BitVec 64) (id : ℕ)
    (s : ChSub α) : Option α → Except Fault (ChTable α × Option α)
  | none => .ok (t.setSub id s, none)
  | some x => do
    return (← compactLoop T mem h (s.csLocalLevel + 1)
      { t.setSub id s with ccNumElm := dec64 t.ccNumElm } id s, some x)

/-- `_ch_remove` -/
def chRemove (T : ChType α) (mem : ℕ → Bool) (t : ChTable α) (h : BitVec 64) (needle : α) :
    Except Fault (ChTable α × Option α) :=
  if t.chExts.isNone then .ok (t, none)
  else do
    let (id, s) ← extAt t t.exts (chH1 h t.chLevel)
    let (s, v) ← chSubRemove T s h needle
    removeEnd T mem t h id s v

/-- `_ch_locate` -/
def chLocate (t : ChTable α) (h : BitVec 64) (eq : α → Bool) : Except Fault (Option α) :=
  if t.chExts.isNone then .ok none
  else do
    let (_, s) ← extAt t t.exts (chH1 h t.chLevel)
    chSubLocate s h eq

/-- `_ch_find` -/
def chFind (T : ChType α) (t : ChTable α) (h : BitVec 64) (needle : α) :
    Except Fault (Option α) :=
  if t.chExts.isNone then .ok none
  else do
    let (_, s) ← extAt t t.exts (chH1 h t.chLevel)
    chSubFind T s h needle

/-! ## Iteration -/

/-- `_ch_first` -/
def chFirst (t : ChTable α) (it : ChIter) : Except Fault (ChIter × Option α) :=
  if t.chExts.isNone then .ok (it, none)
  else do
    let (_, s) ← extAt t t.exts 0
    return chSubFirst s { it with ciExtIdx := 0 }

/-- The search of `_ch_next` for the next sub table, from `idx` on. -/
def nextExt (exts : ℕ → ℕ) (id : ℕ) : ℕ → ℕ → ℕ
  | 0, idx => idx
  | fuel + 1, idx => if exts idx ≠ id then idx else nextExt exts id fuel (idx + 1)

/-- `_ch_next` -/
def chNext (t : ChTable α) (it : ChIter) : Except Fault (ChIter × Option α) :=
  if t.chExts.isNone then .ok (it, none)
  else if 2 ^ t.chLevel ≤ it.ciExtIdx then .ok (it, none)
  else do
    let (id, s) ← extAt t t.exts it.ciExtIdx
    match chSubNext s it with
    | (it, some x) => return (it, some x)
    | (it, none) =>
      -- find next sub table
      if 2 ^ t.chLevel ≤
          nextExt t.exts id (2 ^ t.chLevel - (it.ciExtIdx + 1)) (it.ciExtIdx + 1) then
        return (it, none)
      else
        -- start next sub table
        let (_, s) ← extAt t t.exts
          (nextExt t.exts id (2 ^ t.chLevel - (it.ciExtIdx + 1)) (it.ciExtIdx + 1))
        return chSubFirst s { it with
          ciExtIdx := nextExt t.exts id (2 ^ t.chLevel - (it.ciExtIdx + 1)) (it.ciExtIdx + 1) }

end Bgpd.Chash
