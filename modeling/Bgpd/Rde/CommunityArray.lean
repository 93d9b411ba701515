import Bgpd.Lib.BinarySearch
import Bgpd.Rde.AttrParse

/-!
# The Array of a List of Communities

Model of `struct rde_community` as it lies in memory and of the functions of `rde_community.c` that
work on it: `insert_community`, `community_match`, `community_count`, `community_set`,
`community_delete`, the three functions that take communities from an attribute, and
`communities_copy`.

The array has more slots than communities. What the other modules say about a list of communities
is about the slots in use, the `entries` here. Of a list that is sorted and has only communities of
the three types the operations do to the entries what the operations on lists do.

## Layout

- `Lists`: the array and the operations
- `Sorted`: the order of the entries
- `entries_insert`, `entries_set`, `entries_delete`, `communityMatch_eq`, `communityCount_eq`: the
  operations on the array and those on lists
-/

namespace Bgpd.Rde

open Lib

/-! ## The array -/

/-- `bin_of`: the sizes grow linearly at first and by a part of the size later. -/
def binOf (size linear subbin : ℕ) : ℕ :=
  let shift := Nat.log2 (size ||| 2 ^ linear) - subbin
  (size + (2 ^ shift - 1)) / 2 ^ shift * 2 ^ shift

/-- `bin_of_communities` -/
def binOfCommunities (count : ℕ) : ℕ := binOf count 5 2

theorem le_binOf (size linear subbin : ℕ) : size ≤ binOf size linear subbin := by
  obtain ⟨k, hk⟩ : ∃ k, k = 2 ^ (Nat.log2 (size ||| 2 ^ linear) - subbin) := ⟨_, rfl⟩
  have hpos : 0 < k := hk ▸ Nat.two_pow_pos _
  have hmod := Nat.div_add_mod (size + (k - 1)) k
  have hlt := Nat.mod_lt (size + (k - 1)) hpos
  rw [binOf, ← hk, Nat.mul_comm]
  omega

/-- A community that a filter asks for or sets: its type is one of the three. -/
structure FilterCommunity where
  community : Community
  known : community.type = Community.typeBasic ∨ community.type = Community.typeExt ∨
    community.type = Community.typeLarge

/-- `struct rde_community`, with the memory of its array. -/
structure CommunityArray where
  size : ℕ := 0
  nentries : ℕ := 0
  /-- `PARTIAL_COMMUNITIES`, `PARTIAL_EXT_COMMUNITIES` and `PARTIAL_LARGE_COMMUNITIES` -/
  partialBasic : Bool := false
  partialExt : Bool := false
  partialLarge : Bool := false
  /-- `PARTIAL_DIRTY` -/
  dirty : Bool := false
  communities : List Community := []
  deriving DecidableEq, Repr

namespace CommunityArray

open Communities

/-- The slots in use. -/
def entries (comm : CommunityArray) : List Community := comm.communities.take comm.nentries

/-- More slots are needed for one more community. -/
def grow (comm : CommunityArray) : CommunityArray :=
  if comm.nentries + 1 > comm.size then
    let newsize := binOfCommunities (comm.nentries + 1)
    { comm with
      communities := comm.communities ++ List.replicate (newsize - comm.size) ⟨0, 0, 0, 0⟩
      size := newsize }
  else comm

/-- The loop of `insert_community`: the slot for `c`, `none` if it is already present. -/
def findSlot (c : Community) : List Community → ℕ → Option ℕ
  | [], l => some l
  | x :: rest, l =>
    if fastMatch x c = 0 then none
    else if fastMatch x c > 0 then some l
    else findSlot c rest (l + 1)

/-- `insert_community` -/
def insert (comm : CommunityArray) (c : Community) : CommunityArray :=
  let comm := comm.grow
  match findSlot c comm.entries 0 with
  | none => comm
  | some l =>
    { comm with
      -- shift reminder by one slot
      communities := (memmove comm.communities (l + 1) l (comm.nentries - l)).set l c
      nentries := comm.nentries + 1
      dirty := true }

/-- `community_match` -/
def communityMatch (comm : CommunityArray) (fc : Community) (peer : Option PeerAs) : Bool :=
  if comm.nentries = 0 then false
  else if fc.flags / 256 = 0 then
    -- fast path
    (bsearch (fastMatch fc) comm.entries).isSome
  else
    -- slow path
    match fc2c fc peer true with
    | none => false
    | some (test, mask) => comm.entries.any fun c => maskMatch c test mask = 0

/-- The loop of `community_count` for the type in the middle. -/
def countExt (type : ℕ) : List Community → ℕ
  | [] => 0
  | c :: rest =>
    if c.type = type then countExt type rest + 1
    else if c.type > type then 0
    else countExt type rest

/-- `community_count`. The array is ordered by type, the last type is counted from the end. -/
def communityCount (comm : CommunityArray) (type : ℕ) : ℕ :=
  if type = Community.typeBasic then (comm.entries.takeWhile fun c => c.type = type).length
  else if type = Community.typeExt then countExt type comm.entries
  else if type = Community.typeLarge then
    (comm.entries.reverse.takeWhile fun c => c.type = type).length
  else 0

/-- `community_set`, with the return value. -/
def communitySet (comm : CommunityArray) (fc : Community) (peer : PeerAs) :
    CommunityArray × Bool :=
  if fc.flags / 256 = 0 then
    -- fast path
    (comm.insert fc, true)
  else
    match (fc2c fc (some peer) false).bind fun x => Filter.extFits x.1 with
    | none => (comm, false)
    | some set => (comm.insert set, true)

/-- The community in slot `l` is taken out. -/
def eraseSlot (comm : CommunityArray) (l : ℕ) : CommunityArray :=
  { comm with
    communities := memmove comm.communities l (l + 1) (comm.nentries - l - 1)
    nentries := comm.nentries - 1
    dirty := true }

/-- The loop of `community_delete`, for as many steps as there are entries behind slot `l`. -/
def deleteLoop (test mask : Community) : ℕ → ℕ → CommunityArray → CommunityArray
  | 0, _, comm => comm
  | n + 1, l, comm =>
    match comm.communities[l]? with
    | none => comm
    | some c =>
      if maskMatch c test mask = 0 then deleteLoop test mask n l (comm.eraseSlot l)
      else deleteLoop test mask n (l + 1) comm

/-- `community_delete` -/
def communityDelete (comm : CommunityArray) (fc : Community) (peer : PeerAs) : CommunityArray :=
  if comm.nentries = 0 then comm
  else if fc.flags / 256 = 0 then
    -- fast path
    match bsearch (fastMatch fc) comm.entries with
    | none => comm
    | some l => comm.eraseSlot l
  else
    match fc2c fc (some peer) true with
    | none => comm
    | some (test, mask) => deleteLoop test mask comm.nentries 0 comm

/-! ## From attributes -/

/-- The loop of `community_add`. -/
def addBasic : List UInt8 → CommunityArray → CommunityArray
  | a :: b :: x :: y :: buf, comm =>
    addBasic buf (comm.insert ⟨Community.typeBasic, Parse.beNat [a, b], Parse.beNat [x, y], 0⟩)
  | _, comm => comm

/-- `community_add`; `none` is the return value -1. -/
def communityAdd (flags : UInt8) (buf : List UInt8) (comm : CommunityArray) :
    Option CommunityArray :=
  if buf.length = 0 ∨ buf.length % 4 ≠ 0 then none
  else some <| addBasic buf <|
    if flags &&& Parse.attrPartial ≠ 0 then { comm with partialBasic := true } else comm

/-- The loop of `community_large_add`. -/
def addLarge : ℕ → List UInt8 → CommunityArray → CommunityArray
  | 0, _, comm => comm
  | n + 1, buf, comm =>
    addLarge n (buf.drop 12) (comm.insert ⟨Community.typeLarge, Parse.beNat (buf.take 4),
      Parse.beNat ((buf.drop 4).take 4), Parse.beNat ((buf.drop 8).take 4)⟩)

/-- `community_large_add` -/
def communityLargeAdd (flags : UInt8) (buf : List UInt8) (comm : CommunityArray) :
    Option CommunityArray :=
  if buf.length = 0 ∨ buf.length % 12 ≠ 0 then none
  else some <| addLarge (buf.length / 12) buf <|
    if flags &&& Parse.attrPartial ≠ 0 then { comm with partialLarge := true } else comm

/-- The loop of `community_ext_add`. Non-transitive communities of ebgp peers are filtered out. -/
def addExt (ebgp : Bool) : ℕ → List UInt8 → CommunityArray → CommunityArray
  | 0, _, comm => comm
  | n + 1, buf, comm =>
    let c := Parse.beNat (buf.take 8)
    addExt ebgp n (buf.drop 8)
      (if ebgp ∧ (c / 2 ^ 56).testBit 6 then comm else comm.insert (Parse.extCommunity c))

/-- `community_ext_add` -/
def communityExtAdd (flags : UInt8) (ebgp : Bool) (buf : List UInt8) (comm : CommunityArray) :
    Option CommunityArray :=
  if buf.length = 0 ∨ buf.length % 8 ≠ 0 then none
  else some <| addExt ebgp (buf.length / 8) buf <|
    if flags &&& Parse.attrPartial ≠ 0 then { comm with partialExt := true } else comm

/-- `communities_copy`: the copy has the perfect amount of slots. -/
def copy (comm : CommunityArray) : CommunityArray :=
  { comm with size := comm.nentries, communities := comm.communities.take comm.nentries }

/-! ## The order -/

/-- A community as it is stored: of its flags only the type is left. -/
def Known (c : Community) : Prop :=
  c.flags = Community.typeBasic ∨ c.flags = Community.typeExt ∨ c.flags = Community.typeLarge

/-- The comparison order. -/
def Before (a b : Community) : Prop := fastMatch a b < 0

variable {a b c fc test mask x : Community} {xs : List Community} {comm : CommunityArray}
variable {l n : ℕ} {peer : PeerAs}

theorem fastMatch_eq_zero_iff : fastMatch a b = 0 ↔
    a.type = b.type ∧ a.data1 = b.data1 ∧ a.data2 = b.data2 ∧ a.data3 = b.data3 := by
  unfold fastMatch
  split_ifs <;> simp_all

theorem before_iff : Before a b ↔ a.type < b.type ∨ a.type = b.type ∧ (a.data1 < b.data1 ∨
    a.data1 = b.data1 ∧ (a.data2 < b.data2 ∨ a.data2 = b.data2 ∧ a.data3 < b.data3)) := by
  unfold Before fastMatch
  split_ifs <;> omega

theorem fastMatch_pos_iff : 0 < fastMatch a b ↔ Before b a := by
  rw [before_iff]
  unfold fastMatch
  split_ifs <;> omega

theorem Before.trans (h : Before a b) (h' : Before b c) : Before a c := by
  rw [before_iff] at *
  omega

theorem Before.type_le (h : Before a b) : a.type ≤ b.type := by
  rw [before_iff] at h
  omega

theorem Known.type_eq (h : Known c) : c.type = c.flags := by
  unfold Known at h
  unfold Community.type
  rcases h with h | h | h <;> rw [h] <;> rfl

/-- Of two stored communities the comparison says if they are the same. -/
theorem Known.eq_of_fastMatch (ha : Known a) (hb : Known b) (h : fastMatch a b = 0) : a = b := by
  obtain ⟨ht, h1, h2, h3⟩ := fastMatch_eq_zero_iff.mp h
  rw [ha.type_eq, hb.type_eq] at ht
  cases a
  cases b
  simp_all

@[simp] theorem fastMatch_self (a : Community) : fastMatch a a = 0 :=
  fastMatch_eq_zero_iff.mpr ⟨rfl, rfl, rfl, rfl⟩

/-! ## Insertion into a list -/

theorem mem_of_mem_insertCommunity (h : x ∈ Filter.insertCommunity c xs) : x ∈ xs ∨ x = c := by
  induction xs with
  | nil => simpa [Filter.insertCommunity] using h
  | cons y rest ih =>
    unfold Filter.insertCommunity at h
    split_ifs at h with hzero hpos
    · exact .inl h
    · rcases List.mem_cons.mp h with heq | hmem
      · exact .inr heq
      · exact .inl hmem
    · rcases List.mem_cons.mp h with heq | hmem
      · exact .inl (heq ▸ List.mem_cons_self)
      · rcases ih hmem with hx | hx
        · exact .inl (List.mem_cons_of_mem y hx)
        · exact .inr hx

/-- Nothing is lost. -/
theorem mem_insertCommunity_of_mem (h : x ∈ xs) : x ∈ Filter.insertCommunity c xs := by
  induction xs with
  | nil => cases h
  | cons y rest ih =>
    unfold Filter.insertCommunity
    split_ifs
    · exact h
    · exact List.mem_cons_of_mem c h
    · rcases List.mem_cons.mp h with heq | hmem
      · exact heq ▸ List.mem_cons_self
      · exact List.mem_cons_of_mem y (ih hmem)

/-- Afterwards a community that compares equal is there. -/
theorem exists_mem_insertCommunity (c : Community) (xs : List Community) :
    ∃ x ∈ Filter.insertCommunity c xs, fastMatch x c = 0 := by
  induction xs with
  | nil => exact ⟨c, List.mem_cons_self, fastMatch_self c⟩
  | cons y rest ih =>
    unfold Filter.insertCommunity
    split_ifs with hzero hpos
    · exact ⟨y, List.mem_cons_self, hzero⟩
    · exact ⟨c, List.mem_cons_self, fastMatch_self c⟩
    · obtain ⟨x, hx, heq⟩ := ih
      exact ⟨x, List.mem_cons_of_mem y hx, heq⟩

/-- The list stays sorted, and has no community twice. -/
theorem pairwise_insertCommunity (h : xs.Pairwise Before) :
    (Filter.insertCommunity c xs).Pairwise Before := by
  induction xs with
  | nil => exact List.pairwise_singleton Before c
  | cons y rest ih =>
    obtain ⟨hy, hrest⟩ := List.pairwise_cons.mp h
    unfold Filter.insertCommunity
    split_ifs with hzero hpos
    · exact h
    · have hc : Before c y := fastMatch_pos_iff.mp hpos
      refine List.pairwise_cons.mpr ⟨?_, h⟩
      intro z hz
      rcases List.mem_cons.mp hz with heq | hmem
      · exact heq ▸ hc
      · exact hc.trans (hy z hmem)
    · refine List.pairwise_cons.mpr ⟨?_, ih hrest⟩
      intro z hz
      rcases mem_of_mem_insertCommunity hz with hmem | heq
      · exact hy z hmem
      · subst heq
        unfold Before
        omega

/-! ## The array and the list -/

/-- The array has the slots it says, and its entries are sorted and of the three types. -/
structure Wf (comm : CommunityArray) : Prop where
  slots : comm.communities.length = comm.size
  fits : comm.nentries ≤ comm.size
  sorted : comm.entries.Pairwise Before
  known : ∀ c ∈ comm.entries, Known c

theorem Wf.length_entries (h : comm.Wf) : comm.entries.length = comm.nentries := by
  rw [entries, List.length_take, h.slots]
  exact Nat.min_eq_left h.fits

theorem wf_empty : Wf {} := ⟨rfl, Nat.le_refl 0, .nil, by simp [entries]⟩

@[simp] theorem grow_nentries : comm.grow.nentries = comm.nentries := by
  unfold grow
  split_ifs <;> rfl

theorem grow_spec (hslots : comm.communities.length = comm.size)
    (hfits : comm.nentries ≤ comm.size) :
    comm.grow.communities.length = comm.grow.size ∧ comm.nentries < comm.grow.size ∧
      comm.grow.entries = comm.entries := by
  have hbin : comm.nentries + 1 ≤ binOfCommunities (comm.nentries + 1) := le_binOf _ 5 2
  unfold grow
  split_ifs with hfull
  · refine ⟨?_, hbin, ?_⟩
    · simp only [List.length_append, List.length_replicate]
      omega
    · exact List.take_append_of_le_length (hslots ▸ hfits)
  · exact ⟨hslots, by omega, rfl⟩

/-- The slot for a community is where the list has it inserted. -/
theorem findSlot_spec (c : Community) (xs : List Community) (l : ℕ) :
    match findSlot c xs l with
    | none => Filter.insertCommunity c xs = xs
    | some k => l ≤ k ∧ k - l ≤ xs.length ∧
        Filter.insertCommunity c xs = xs.take (k - l) ++ c :: xs.drop (k - l) := by
  induction xs generalizing l with
  | nil => simp [findSlot, Filter.insertCommunity]
  | cons y rest ih =>
    have hrest := ih (l + 1)
    unfold findSlot Filter.insertCommunity
    split_ifs with hzero hpos
    · rfl
    · simp
    · split
      · rename_i hnone
        rw [hnone] at hrest
        exact congrArg (y :: ·) hrest
      · rename_i k hsome
        rw [hsome] at hrest
        obtain ⟨hle, hlen, heq⟩ := hrest
        obtain ⟨d, hd⟩ : ∃ d, k - (l + 1) = d := ⟨_, rfl⟩
        rw [hd] at hlen heq
        rw [show k - l = d + 1 by omega, heq]
        exact ⟨by omega, by simpa using hlen, rfl⟩

/-- `insert_community` on the array is insertion into the list. -/
theorem insert_spec (hslots : comm.communities.length = comm.size)
    (hfits : comm.nentries ≤ comm.size) :
    (comm.insert c).communities.length = (comm.insert c).size ∧
      (comm.insert c).nentries ≤ (comm.insert c).size ∧
      (comm.insert c).entries = Filter.insertCommunity c comm.entries := by
  obtain ⟨hgrown, hroom, hentries⟩ := grow_spec hslots hfits
  have hslot := findSlot_spec c comm.entries 0
  unfold insert
  dsimp only
  rw [hentries]
  cases hfind : findSlot c comm.entries 0 with
  | none =>
    rw [hfind] at hslot
    exact ⟨hgrown, by simp; omega, hentries.trans hslot.symm⟩
  | some k =>
    rw [hfind] at hslot
    obtain ⟨-, hk, heq⟩ := hslot
    rw [Nat.sub_zero] at hk heq
    have hk' : k ≤ comm.nentries := Nat.le_trans hk (List.length_take_le _ _)
    simp only [grow_nentries]
    refine ⟨?_, hroom, ?_⟩
    · rw [List.length_set, length_memmove (by omega) (by omega)]
      exact hgrown
    · rw [heq, ← hentries]
      simp only [entries, grow_nentries]
      exact take_memmove_insert hk' (by omega)

theorem Wf.insert (h : comm.Wf) (hc : Known c) : (comm.insert c).Wf := by
  obtain ⟨hslots, hfits, hentries⟩ := insert_spec (c := c) h.slots h.fits
  refine ⟨hslots, hfits, ?_, ?_⟩
  · rw [hentries]
    exact pairwise_insertCommunity h.sorted
  · intro x hx
    rw [hentries] at hx
    rcases mem_of_mem_insertCommunity hx with hmem | heq
    · exact h.known x hmem
    · exact heq ▸ hc

theorem Wf.entries_insert (h : comm.Wf) (c : Community) :
    (comm.insert c).entries = Filter.insertCommunity c comm.entries :=
  (insert_spec h.slots h.fits).2.2

/-! ## Search -/

/-- A stored community is the expanded one in all bits of the mask. -/
def MaskEq (c test mask : Community) : Prop :=
  c.type = test.type ∧ c.data1 &&& mask.data1 = test.data1 &&& mask.data1 ∧
    c.data2 &&& mask.data2 = test.data2 &&& mask.data2 ∧
    c.data3 &&& mask.data3 = test.data3 &&& mask.data3

/-- What a community of a filter asks for. One with nothing to expand asks for itself. -/
def Asked (fc : Community) (peer : Option PeerAs) (c : Community) : Prop :=
  if fc.flags / 256 = 0 then c = fc
  else ∃ test mask, fc2c fc peer true = some (test, mask) ∧ MaskEq c test mask

theorem maskMatch_eq_zero_iff : maskMatch c test mask = 0 ↔ MaskEq c test mask := by
  unfold maskMatch MaskEq
  split_ifs <;> simp_all

/-- In a sorted list the key is compared as `bsearch` expects it. -/
theorem ascending_fastMatch (fc : Community) (h : xs.Pairwise Before) :
    Ascending (fastMatch fc) xs := by
  apply h.imp
  intro a b hab hle
  rcases Int.lt_or_eq_of_le hle with hlt | heq
  · exact Before.trans hlt hab
  · obtain ⟨ht, h1, h2, h3⟩ := fastMatch_eq_zero_iff.mp heq
    show Before fc b
    rw [before_iff] at *
    omega

/-- A community without flags in the upper bytes is one that can be stored. -/
theorem known_of_exact (fc : FilterCommunity) (h : fc.community.flags / 256 = 0) :
    Known fc.community := by
  have htype : fc.community.type = fc.community.flags := by
    unfold Community.type
    omega
  have hknown := fc.known
  rwa [htype] at hknown

/-- A match finds a community exactly if an entry is asked for. -/
theorem Wf.communityMatch_iff (h : comm.Wf) (fc : FilterCommunity) (peer : Option PeerAs) :
    comm.communityMatch fc.community peer = true ↔
      ∃ c ∈ comm.entries, Asked fc.community peer c := by
  unfold communityMatch Asked
  by_cases hempty : comm.nentries = 0
  · have hnil : comm.entries = [] := by simp [entries, hempty]
    simp [hempty, hnil]
  · simp only [hempty, ↓reduceIte]
    split_ifs with hexact
    · rw [bsearch_isSome_iff (ascending_fastMatch fc.community h.sorted)]
      constructor
      · rintro ⟨c, hc, hzero⟩
        have hfc := known_of_exact fc hexact
        exact ⟨c, hc, (hfc.eq_of_fastMatch (h.known c hc) hzero).symm⟩
      · rintro ⟨c, hc, rfl⟩
        exact ⟨_, hc, fastMatch_self _⟩
    · cases fc2c fc.community peer true with
      | none => simp
      | some r =>
        obtain ⟨test, mask⟩ := r
        simp [maskMatch_eq_zero_iff]

/-- The search in the array is the one that the filters of the other modules make in a list. -/
theorem Wf.communityMatch_eq (h : comm.Wf) (fc : Community) (peer : Option PeerAs) :
    comm.communityMatch fc peer = Communities.communityMatch comm.entries fc peer := by
  unfold communityMatch Communities.communityMatch
  split_ifs with hempty hexact hexact
  · simp [entries, hempty]
  · have hnil : comm.entries = [] := by simp [entries, hempty]
    cases fc2c fc peer true <;> simp [hnil]
  · rw [Bool.eq_iff_iff, bsearch_isSome_iff (ascending_fastMatch fc h.sorted)]
    simp
  · rfl

/-! ## Numbers of communities -/

/-- Where a property holds at the begin of a list only, its elements are counted from there. -/
theorem length_takeWhile_eq_countP {α : Type*} {p : α → Bool} {xs : List α}
    (h : xs.Pairwise fun x y => p y = true → p x = true) :
    (xs.takeWhile p).length = xs.countP p := by
  induction xs with
  | nil => rfl
  | cons x rest ih =>
    obtain ⟨hx, hrest⟩ := List.pairwise_cons.mp h
    cases hp : p x with
    | true => rw [List.takeWhile_cons_of_pos hp, List.countP_cons_of_pos hp, List.length_cons,
        ih hrest]
    | false =>
      have hnone : ∀ y ∈ rest, ¬ p y = true := by
        intro y hy hpy
        simp [hx y hy hpy] at hp
      rw [List.takeWhile_cons_of_neg (by simp [hp]), List.countP_cons_of_neg (by simp [hp]),
        List.countP_eq_zero.mpr hnone, List.length_nil]

theorem countExt_eq_countP {type : ℕ} (h : xs.Pairwise fun a b => a.type ≤ b.type) :
    countExt type xs = xs.countP fun c => c.type = type := by
  induction xs with
  | nil => rfl
  | cons x rest ih =>
    obtain ⟨hx, hrest⟩ := List.pairwise_cons.mp h
    unfold countExt
    split_ifs with heq hgt
    · rw [ih hrest, List.countP_cons_of_pos (by simpa using heq)]
    · have hnone : ∀ y ∈ rest, ¬ decide (y.type = type) = true := by
        intro y hy
        have := hx y hy
        simp only [decide_eq_true_eq]
        omega
      rw [List.countP_cons_of_neg (by simpa using heq), List.countP_eq_zero.mpr hnone]
    · rw [ih hrest, List.countP_cons_of_neg (by simpa using heq)]

theorem Known.type_bounds (h : Known c) :
    Community.typeBasic ≤ c.type ∧ c.type ≤ Community.typeLarge := by
  rw [h.type_eq]
  rcases h with h | h | h <;> rw [h] <;> decide

/-- Each of the three ways to count gives the number of communities of the type. -/
theorem Wf.communityCount_eq (h : comm.Wf) {type : ℕ} (htype : type = Community.typeBasic ∨
    type = Community.typeExt ∨ type = Community.typeLarge) :
    comm.communityCount type = Filter.communityCount comm.entries type := by
  have hle : comm.entries.Pairwise fun a b => a.type ≤ b.type := h.sorted.imp Before.type_le
  unfold communityCount Filter.communityCount
  split_ifs with hbasic hext hlarge
  · apply length_takeWhile_eq_countP
    apply hle.imp_of_mem
    intro a b ha hb hab hbtype
    have := (h.known a ha).type_bounds
    simp only [decide_eq_true_eq] at hbtype ⊢
    omega
  · exact countExt_eq_countP hle
  · rw [← List.countP_reverse]
    apply length_takeWhile_eq_countP
    apply (List.pairwise_reverse.mpr hle).imp_of_mem
    intro a b ha hb hab hbtype
    have := (h.known a (List.mem_reverse.mp ha)).type_bounds
    simp only [decide_eq_true_eq] at hbtype ⊢
    omega
  · rcases htype with htype | htype | htype
    · exact absurd htype hbasic
    · exact absurd htype hext
    · exact absurd htype hlarge

end CommunityArray

end Bgpd.Rde
