import Bgpd.Rde.Filter

/-!
# What Filter Rules Set

Model of `rde_apply_set` in `rde_filter.c` with what it calls: `aspath_prepend` and
`aspath_override` of `rde_attr.c`, `community_set` and `community_delete` of `rde_community.c`, and
`nexthop_modify` of `rde_rib.c`.

A rule changes numbers, the AS path, communities and the nexthop. Of the flags of a path it only
sets those of the MED, and it leaves the attributes alone that are kept as bytes, which
`FlagsKept` says in one place for all that filters do.

## Main results

- `rdeApplySet_kept`: a set of actions keeps them
- `rdeFilterOut_kept`: so does a list of rules
-/

namespace Bgpd.Rde.Filter

/-! ## Numbers -/

/-- The relative actions, on a number that stays between 0 and `UINT_MAX`. -/
def addRelative (value : ℕ) (relative : ℤ) : ℕ :=
  if 0 < relative then
    if Communities.uint32Max - relative.toNat < value then Communities.uint32Max
    else value + relative.toNat
  else if value < relative.natAbs then 0
  else value - relative.natAbs

/-! ## AS paths -/

/-- `aspath_prepend` -/
def aspathPrependN (as quantum : ℕ) (path : Aspath) : Aspath :=
  -- no change needed but return a copy
  if quantum = 0 then path
  else
    match path with
    | [] => [⟨.asSequence, List.replicate quantum as⟩]
    | s :: rest =>
      if s.type = .asSet then ⟨.asSequence, List.replicate quantum as⟩ :: s :: rest
      else
        -- need to attach a new AS_SEQUENCE
        let overflow := s.ases.length + quantum - 255
        let quantum := quantum - overflow
        (if overflow = 0 then [] else [⟨.asSequence, List.replicate overflow as⟩]) ++
          (if quantum = 0 then s
          else ⟨.asSequence, List.replicate quantum as ++ s.ases⟩) :: rest

/-- `aspath_override` -/
def aspathOverride (neighborAs localAs : ℕ) (path : Aspath) : Aspath :=
  path.map fun s => { s with ases := s.ases.map fun as => if as = neighborAs then localAs else as }

/-! ## Communities -/

/-- `insert_community` -/
def insertCommunity (c : Community) : List Community → List Community
  | [] => [c]
  | x :: rest =>
    -- already present, nothing to do
    if Communities.fastMatch x c = 0 then x :: rest
    else if Communities.fastMatch x c > 0 then c :: x :: rest
    else x :: insertCommunity c rest

/-- The check of `community_set` that the values of an extended community fit. -/
def extFits (set : Community) : Option Community :=
  let value := Communities.extType set % (Community.extValue + 1)
  if set.type = Community.typeExt ∧
      (value = Community.extTransTwoAs ∨ value = Community.extTransFourAs) then
    if Communities.ushrtMax < set.data1 ∧ Communities.ushrtMax < set.data2 then none
    else
      let type := if Communities.ushrtMax < set.data1 then Community.extTransFourAs
        else Community.extTransTwoAs
      some { set with data3 := type.toNat * 256 + set.data3 % 256 }
  else some set

/-- `community_set` -/
def communitySet (comm : List Community) (fc : Community) (peer : Communities.PeerAs) :
    List Community :=
  if fc.flags / 256 = 0 then
    -- fast path
    insertCommunity fc comm
  else
    match (Communities.fc2c fc (some peer) false).bind fun x => extFits x.1 with
    | none => comm
    | some set => insertCommunity set comm

/-- `community_delete` -/
def communityDelete (comm : List Community) (fc : Community) (peer : Communities.PeerAs) :
    List Community :=
  if fc.flags / 256 = 0 then
    -- fast path
    comm.eraseP fun c => Communities.fastMatch fc c = 0
  else
    match Communities.fc2c fc (some peer) true with
    | none => comm
    | some (test, mask) => comm.filter fun c => Communities.maskMatch c test mask ≠ 0

/-! ## Actions -/

/-- `struct rde_filter_set_elm` -/
inductive FilterSetElm where
  | localpref (metric : ℕ)
  | relativeLocalpref (relative : ℤ)
  | med (metric : ℕ)
  | relativeMed (relative : ℤ)
  | weight (metric : ℕ)
  | relativeWeight (relative : ℤ)
  | prependSelf (prepend : ℕ)
  | prependPeer (prepend : ℕ)
  | asOverride
  | nexthop (setnh : BgpdAddr)
  | nexthopReject
  | nexthopBlackhole
  | nexthopNomodify
  | nexthopSelf
  | community (c : Community)
  | delCommunity (c : Community)
  | pftable (id : ℕ)
  | rtlabel (id : ℕ)
  | origin (origin : ℕ)
  deriving DecidableEq, Repr

/-- A change of the AS path. -/
def mapAspath (state : FilterState) (f : Aspath → Aspath) : FilterState :=
  { state with aspath := { state.aspath with aspath := f state.aspath.aspath } }

/-- `ACTION_SET_MED` and `ACTION_SET_RELATIVE_MED` -/
def setMed (state : FilterState) (med : ℕ) : FilterState :=
  { state with aspath := { state.aspath with
      med := med
      flags := { state.aspath.flags with attrMed := true, medAnnounce := true } } }

/-- The body of the loop in `rde_apply_set`, with `nexthop_modify`. -/
def applySetElm (peer : FilterPeer) (from_ : FromPeer) (aid : Option Aid) (state : FilterState) :
    FilterSetElm → FilterState
  | .localpref metric => { state with aspath := { state.aspath with lpref := metric } }
  | .relativeLocalpref relative =>
    { state with aspath := { state.aspath with lpref := addRelative state.aspath.lpref relative } }
  | .med metric => setMed state metric
  | .relativeMed relative => setMed state (addRelative state.aspath.med relative)
  | .weight metric => { state with aspath := { state.aspath with weight := metric } }
  | .relativeWeight relative =>
    { state with
      aspath := { state.aspath with weight := addRelative state.aspath.weight relative } }
  | .prependSelf prepend => mapAspath state (aspathPrependN peer.localAs prepend)
  | .prependPeer prepend => mapAspath state (aspathPrependN from_.conf.remoteAs prepend)
  | .asOverride => mapAspath state (aspathOverride from_.conf.remoteAs from_.conf.localAs)
  | .nexthop setnh =>
    -- it is possible that a prefix has the wrong address family for the set nexthop
    if aid ≠ setnh.aid then state else { state with nexthop := some setnh, nhflags := {} }
  | .nexthopReject => { state with nhflags := { reject := true } }
  | .nexthopBlackhole => { state with nhflags := { blackhole := true } }
  | .nexthopNomodify => { state with nhflags := { nomodify := true } }
  | .nexthopSelf => { state with nhflags := { self := true } }
  | .community c =>
    { state with communities := communitySet state.communities c ⟨peer.remoteAs, peer.localAs⟩ }
  | .delCommunity c =>
    { state with communities := communityDelete state.communities c ⟨peer.remoteAs, peer.localAs⟩ }
  | .pftable id => { state with aspath := { state.aspath with pftableid := id } }
  | .rtlabel id => { state with aspath := { state.aspath with rtlabelid := id } }
  | .origin origin => { state with aspath := { state.aspath with origin := origin } }

/-- `rde_apply_set`; no actions are `NULL` too. -/
def rdeApplySet (rfs : List FilterSetElm) (peer : FilterPeer) (from_ : FromPeer)
    (state : FilterState) (aid : Option Aid) : FilterState :=
  rfs.foldl (applySetElm peer from_ aid) state

/-- The arguments of a filter with the actions of the source. -/
def filterArgs (localAs : ℕ) (peer : FilterPeer) (from_ : FromPeer) (addr : BgpdAddr) (plen : ℕ) :
    FilterArgs (List FilterSetElm) :=
  ⟨rdeApplySet, localAs, peer, from_, addr, plen⟩

/-! ## What is kept -/

/-- The same attributes kept as bytes, and the same flags but those of the MED. -/
structure FlagsKept (a b : RdeAspath) : Prop where
  others : b.others = a.others
  flags : { b.flags with attrMed := a.flags.attrMed, medAnnounce := a.flags.medAnnounce } = a.flags

variable {a b d : RdeAspath} {state : FilterState}

theorem FlagsKept.refl (a : RdeAspath) : FlagsKept a a := ⟨rfl, rfl⟩

theorem FlagsKept.trans (h : FlagsKept a b) (h' : FlagsKept b d) : FlagsKept a d where
  others := h'.others.trans h.others
  flags := by
    rw [← h.flags, ← h'.flags]

theorem FlagsKept.otc (h : FlagsKept a b) : b.flags.otc = a.flags.otc := by rw [← h.flags]

theorem applySetElm_kept (peer : FilterPeer) (from_ : FromPeer) (aid : Option Aid)
    (state : FilterState) (e : FilterSetElm) :
    FlagsKept state.aspath (applySetElm peer from_ aid state e).aspath := by
  cases e with
  | nexthop setnh =>
    simp only [applySetElm]
    split_ifs
    · exact FlagsKept.refl _
    · exact FlagsKept.refl _
  | _ => exact ⟨rfl, rfl⟩

theorem rdeApplySet_kept (rfs : List FilterSetElm) (peer : FilterPeer) (from_ : FromPeer)
    (state : FilterState) (aid : Option Aid) :
    FlagsKept state.aspath (rdeApplySet rfs peer from_ state aid).aspath := by
  induction rfs generalizing state with
  | nil => exact FlagsKept.refl _
  | cons e rfs ih =>
    exact (applySetElm_kept peer from_ aid state e).trans (ih _)

variable {c : FilterArgs (List FilterSetElm)}

theorem applyRule_kept (hset : c.rdeApplySet = rdeApplySet) (f : FilterRule (List FilterSetElm))
    (action : FilterAction) (state : FilterState) :
    FlagsKept state.aspath (c.applyRule f action state).2.2.aspath := by
  unfold FilterArgs.applyRule
  by_cases hmatch : rdeFilterMatch c.localAs f.match_ c.peer c.from_ state c.addr c.plen = true
  · rw [if_pos hmatch, hset]
    exact rdeApplySet_kept f.rdeSet c.peer c.from_ state c.addr.aid
  · rw [if_neg hmatch]
    exact FlagsKept.refl _

theorem rdeFilterOutLoop_kept (hset : c.rdeApplySet = rdeApplySet)
    (rf : List (FilterRule (List FilterSetElm))) (action : FilterAction) (state : FilterState) :
    FlagsKept state.aspath (rdeFilterOutLoop c rf action state).2.aspath := by
  induction rf generalizing action state with
  | nil => exact FlagsKept.refl _
  | cons f rf ih =>
    have hrule := applyRule_kept hset f action state
    rcases hr : c.applyRule f action state with ⟨quick, action', state'⟩
    rw [hr] at hrule
    simp only [rdeFilterOutLoop, hr]
    split_ifs
    · exact hrule
    · exact hrule.trans (ih action' state')

/-- `rde_filter_out` keeps them. -/
theorem rdeFilterOut_kept (hset : c.rdeApplySet = rdeApplySet)
    (rf : List (FilterRule (List FilterSetElm))) (state : FilterState) :
    FlagsKept state.aspath (rdeFilterOut c rf state).2.aspath := by
  unfold rdeFilterOut
  split_ifs
  · exact FlagsKept.refl _
  · exact FlagsKept.refl _
  · exact rdeFilterOutLoop_kept hset rf .deny state

end Bgpd.Rde.Filter
