import Bgpd.Rde.Types

/-!
# ASPA Tables and Path Validation

The functions of `rde_aspa.c`. An ASPA table maps a customer AS to the set of its provider
ASes. Its nodes are kept in one array; nodes with the same hash are neighbours in it, in
ascending order, and all but the last one of such a run have `next` set. `aspa_validation`
walks an AS path once, from the neighbor to the origin, and looks up each hop in both
directions.

Timestamps and memory counters are left out. The providers of a node are the list itself, not
a pointer into the data area: this area is only appended to.

## Layout

- `hash`, `aspaTablePrep`, `aspaAddSet`: filling a table
- `aspaLookup`, `aspaCpLookup`: the relation between two ASes
- `aspaCheckAspath`, `aspaCheckFinalize`, `aspaValidation`
-/

namespace Bgpd.Rpki

open Bgpd.Rde

/-! ## The table -/

/-- `enum cp_state` -/
inductive CpState where
  | unknown | notProvider | provider
  deriving DecidableEq, Repr

/-- `struct rde_aspa_set` -/
structure AspaSet where
  as : ℕ
  pas : List ℕ
  next : Bool := false
  deriving DecidableEq, Repr

/-- `struct rde_aspa`. `sets` holds the `curset` nodes in use, a pointer of `table` is an index
    of this list. -/
structure RdeAspa where
  table : ℕ → Option ℕ := fun _ => none
  mask : ℕ
  maxset : ℕ
  sets : List AspaSet := []
  maxdata : ℕ
  curdata : ℕ := 0

/-- The reasons for `fatalx`. -/
inductive AspaFatal where
  /-- "aspa_table_prep overflow" -/
  | prepOverflow
  /-- "aspa set overflow" -/
  | setOverflow
  /-- "bad order of adds" -/
  | badOrder
  /-- "aspa set data overflow" -/
  | dataOverflow
  deriving DecidableEq, Repr

/-- `hash`: the finalization mix of MurmurHash3. -/
def hash (as : ℕ) : ℕ :=
  let h := UInt32.ofNat as
  let h := h ^^^ (h >>> 16)
  let h := h * 0x85ebca6b
  let h := h ^^^ (h >>> 13)
  let h := h * 0xc2b2ae35
  let h := h ^^^ (h >>> 16)
  h.toNat

def RdeAspa.slot (ra : RdeAspa) (as : ℕ) : ℕ := hash as &&& ra.mask

/-- The loop of `aspa_table_prep` that doubles the size. -/
def aspaHsize (entries : ℕ) : ℕ → ℕ → ℕ
  | 0, hsize => hsize
  | fuel + 1, hsize => if hsize < entries then aspaHsize entries fuel (hsize * 2) else hsize

/-- `aspa_table_prep`: there is no table without entries. A size of `2 ^ 32` is enough for
    every number of entries that is accepted. -/
def aspaTablePrep (entries datasize : ℕ) : Except AspaFatal (Option RdeAspa) :=
  if entries = 0 then .ok none
  else if entries > (2 ^ 32 - 1) / 2 then .error .prepOverflow
  else .ok (some
    { mask := aspaHsize entries 22 1024 - 1, maxset := entries, maxdata := datasize / 4 })

/-- The new node and where it goes: at the end of the array, or before the first node with
    the same hash. The nodes behind it move by one, and so do the pointers to them. -/
def RdeAspa.insertSet (ra : RdeAspa) (cas : ℕ) (pas : List ℕ) : Except AspaFatal RdeAspa :=
  match ra.table (ra.slot cas) with
  | none =>
    .ok { ra with
      sets := ra.sets ++ [{ as := cas, pas := pas }]
      table := Function.update ra.table (ra.slot cas) (some ra.sets.length) }
  | some k =>
    if (ra.sets.getD k ⟨0, [], false⟩).as ≤ cas then .error .badOrder
    else
      .ok { ra with
        sets := ra.sets.insertIdx k { as := cas, pas := pas, next := true }
        -- adjust hashtable after shift of elements
        table := Function.update
          (fun i => (ra.table i).map fun j => if k < j then j + 1 else j)
          (ra.slot cas) (some k) }

/-- `aspa_add_set` -/
def aspaAddSet (ra : RdeAspa) (cas : ℕ) (pas : List ℕ) : Except AspaFatal RdeAspa :=
  if ra.sets.length ≥ ra.maxset then .error .setOverflow
  else do
    let ra ← ra.insertSet cas pas
    if ra.maxdata - ra.curdata < pas.length then .error .dataOverflow
    else .ok { ra with curdata := ra.curdata + pas.length }

/-- The messages of one transfer: the sizes, then the sets from the biggest customer on. -/
def aspaFill (entries datasize : ℕ) (sets : List (ℕ × List ℕ)) :
    Except AspaFatal (Option RdeAspa) := do
  match ← aspaTablePrep entries datasize with
  | none => return none
  | some ra => return some (← sets.foldlM (fun ra set => aspaAddSet ra set.1 set.2) ra)

/-- The walk of `aspa_lookup` along the nodes with the same hash. -/
def aspaLookupFrom (asnum : ℕ) : List AspaSet → Option AspaSet
  | [] => none
  | aspa :: rest =>
    if aspa.as < asnum then
      if aspa.next then aspaLookupFrom asnum rest else none
    else if aspa.as = asnum then some aspa
    else none

/-- `aspa_lookup` -/
def aspaLookup (ra : RdeAspa) (asnum : ℕ) : Option AspaSet :=
  match ra.table (ra.slot asnum) with
  | none => none
  | some k => aspaLookupFrom asnum (ra.sets.drop k)

/-- The search for few providers. -/
def aspaSearch (pas : ℕ) : List ℕ → CpState
  | [] => .notProvider
  | x :: rest =>
    if x = pas then .provider
    else if x > pas then .notProvider
    else aspaSearch pas rest

/-- The binary search for many providers. `lim` becomes smaller with each round, so that its
    first value bounds the number of rounds. -/
def aspaBsearch (l : List ℕ) (pas : ℕ) : ℕ → ℕ → ℕ → CpState
  | 0, _, _ => .notProvider
  | fuel + 1, i, lim =>
    if lim = 0 then .notProvider
    else if l.getD (i + lim / 2) 0 = pas then .provider
    -- move right
    else if l.getD (i + lim / 2) 0 < pas
      then aspaBsearch l pas fuel (i + lim / 2 + 1) ((lim - 1) / 2)
    -- move left
    else aspaBsearch l pas fuel i (lim / 2)

/-- `aspa_cp_lookup`: the relation between the customer `cas` and the provider `pas`. -/
def aspaCpLookup (ra : RdeAspa) (cas pas : ℕ) : CpState :=
  match aspaLookup ra cas with
  | none => .unknown
  | some aspa =>
    if aspa.pas.length < 16 then aspaSearch pas aspa.pas
    else aspaBsearch aspa.pas pas (aspa.pas.length + 1) 0 aspa.pas.length

/-! ## The walk along an AS path -/

/-- `struct aspa_state` -/
structure AspaState where
  nhops : ℕ := 0
  nupP : ℕ := 0
  nupU : ℕ := 0
  nupNp : ℕ := 0
  ndownP : ℕ := 0
  ndownU : ℕ := 0
  ndownNp : ℕ := 0
  deriving DecidableEq, Repr

/-- The first `switch` of `aspa_check_aspath`: the down-ramp. -/
def AspaState.down (s : AspaState) : CpState → AspaState
  | .unknown => if s.ndownU = 0 then { s with ndownU := s.nhops } else s
  | .provider => if s.ndownP + 1 = s.nhops then { s with ndownP := s.nhops } else s
  | .notProvider => if s.ndownNp = 0 then { s with ndownNp := s.nhops } else s

/-- The second `switch` of `aspa_check_aspath`: the up-ramp. -/
def AspaState.up (s : AspaState) : CpState → AspaState
  | .unknown => { s with nupP := 0, nupU := s.nhops - 1 }
  | .provider => if s.nupP = 0 then { s with nupP := s.nhops - 1 } else s
  | .notProvider => { s with nupP := 0, nupNp := s.nhops - 1 }

/-- One round of the inner loop of `aspa_check_aspath`; the state is `prevas` and `s`. -/
def aspaCheckAs (ra : RdeAspa) (st : ℕ × AspaState) (as : ℕ) : ℕ × AspaState :=
  let (prevas, s) := st
  -- skip prepends
  if as = prevas then st
  else
    let s := { s with nhops := s.nhops + 1 }
    -- skip left-most AS
    if prevas = 0 then (as, s)
    else (as, (s.down (aspaCpLookup ra prevas as)).up (aspaCpLookup ra as prevas))

/-- The loop of `aspa_check_aspath` over the segments, `none` for a segment that is not a
    sequence. -/
def aspaCheckSegments (ra : RdeAspa) : Aspath → ℕ × AspaState → Option (ℕ × AspaState)
  | [], st => some st
  | seg :: rest, st =>
    if seg.type = .asSequence then
      aspaCheckSegments ra rest (seg.ases.foldl (aspaCheckAs ra) st)
    else none

/-- `aspa_check_aspath` -/
def aspaCheckAspath (ra : RdeAspa) (a : Aspath) : Option AspaState :=
  -- the neighbor-as itself is by definition valid
  match aspaCheckSegments ra a (0, { ndownP := 1 }) with
  | none => none
  -- the source-as itself is by definition valid
  | some (_, s) => some (if s.nupP = 0 then { s with nupP := s.nhops } else s)

/-- The ASPA validation states. -/
inductive AspaVstate where
  | unknown | invalid | valid | neverKnown
  deriving DecidableEq, Repr

/-- `struct rde_aspa_state` -/
structure RdeAspaState where
  onlyup : AspaVstate := .unknown
  downup : AspaVstate := .unknown
  deriving DecidableEq, Repr

/-- `aspa_check_finalize` -/
def aspaCheckFinalize (s : AspaState) : RdeAspaState where
  onlyup :=
    if s.nupNp ≠ 0 then .invalid
    else if s.nupU ≠ 0 then .unknown
    else .valid
  downup :=
    if s.nhops ≤ 2 then .valid
    else if (s.nupP : ℤ) - s.ndownP ≤ 1 then .valid
    else if s.nupNp ≠ 0 ∧ s.ndownNp ≠ 0 ∧ (s.nupNp : ℤ) - s.ndownNp ≥ 0 then .invalid
    else .unknown

/-- `aspa_validation` -/
def aspaValidation (ra : Option RdeAspa) (a : Aspath) : RdeAspaState :=
  match ra with
  -- no aspa table, everything is unknown
  | none => ⟨.unknown, .unknown⟩
  | some ra =>
    -- empty ASPATHs are always invalid
    if a = [] then ⟨.invalid, .invalid⟩
    else match aspaCheckAspath ra a with
      | none => ⟨.invalid, .invalid⟩
      | some s => aspaCheckFinalize s

end Bgpd.Rpki
