import Bgpd.Rde.CommunityFits

/-!
# Communities in Attributes

`community_writebuf` writes the communities of one type as an attribute, and the three functions
that take communities from an attribute read them again. Non-transitive extended communities are
not sent to ebgp peers and not taken from them.

## Main results

- `communitiesOf_eq`: the communities that are written
- `parse_bytes`: the bytes of sorted communities give these communities again
- `getAttr_header`: the length in the header of an attribute is that of its bytes
- `writebuf_roundtrip`: what is written, and what reading it gives
-/

namespace Bgpd.Rde

open Msg (beBytes extBytes communityBytes communitiesOf nonTransitive attrHeader ibufAdd
  attrWritebuf)
open Parse (beNat extCommunity attrOptional attrTransitive attrPartial attrExtlen attrDefmask
  getAttr)

namespace CommunityArray

open Communities

/-- The attributes in which communities are sent. -/
inductive CommunityAttr where
  | communities | extCommunities | largeCommunities
  deriving DecidableEq, Repr

/-- `ATTR_COMMUNITIES`, `ATTR_EXT_COMMUNITIES` and `ATTR_LARGE_COMMUNITIES` -/
def CommunityAttr.code : CommunityAttr → UInt8
  | .communities => 8
  | .extCommunities => 16
  | .largeCommunities => 32

/-- The type of the communities in an attribute. -/
def CommunityAttr.type : CommunityAttr → ℕ
  | .communities => Community.typeBasic
  | .extCommunities => Community.typeExt
  | .largeCommunities => Community.typeLarge

/-- The size of a community in an attribute. -/
def CommunityAttr.size : CommunityAttr → ℕ
  | .communities => 4
  | .extCommunities => 8
  | .largeCommunities => 12

/-- The partial flag of an attribute. -/
def isPartial (comm : CommunityArray) : CommunityAttr → Bool
  | .communities => comm.partialBasic
  | .extCommunities => comm.partialExt
  | .largeCommunities => comm.partialLarge

/-- `community_writebuf`; the buffer may grow to `max` bytes. -/
def communityWritebuf (max : ℕ) (comm : CommunityArray) (attr : CommunityAttr) (ebgp : Bool)
    (buf : List UInt8) : Option (List UInt8) :=
  Msg.communityWritebuf max attr.code attr.type attr.size
    (comm.isPartial attr) ebgp comm.entries buf

/-- `community_add`, `community_ext_add` or `community_large_add`, on an empty list. -/
def communityParse (attr : CommunityAttr) (flags : UInt8) (ebgp : Bool) (data : List UInt8) :
    Option CommunityArray :=
  match attr with
  | .communities => communityAdd flags data {}
  | .extCommunities => communityExtAdd flags ebgp data {}
  | .largeCommunities => communityLargeAdd flags data {}

/-- The communities that are to be sent. -/
def sent (comm : CommunityArray) (attr : CommunityAttr) (ebgp : Bool) : List Community :=
  comm.entries.filter fun c => c.type = attr.type ∧ ¬(ebgp ∧ nonTransitive c)

variable {a b c : Community} {xs acc : List Community} {comm : CommunityArray}
variable {attr : CommunityAttr} {ebgp : Bool} {t : ℕ}

/-! ## What is written -/

/-- Of a sorted list the loop that counts stops behind the communities of the type. -/
theorem takeWhile_type (h : xs.Pairwise fun a b => a.type ≤ b.type) :
    xs.takeWhile (fun c => c.type ≤ t) = xs.filter fun c => c.type ≤ t := by
  induction xs with
  | nil => rfl
  | cons x rest ih =>
    obtain ⟨hx, hrest⟩ := List.pairwise_cons.mp h
    by_cases hle : x.type ≤ t
    · rw [List.takeWhile_cons_of_pos (by simpa using hle), ih hrest,
        List.filter_cons_of_pos (by simpa using hle)]
    · have hnone : rest.filter (fun c => c.type ≤ t) = [] := by
        apply List.filter_eq_nil_iff.mpr
        intro y hy
        have := hx y hy
        simp only [decide_eq_true_eq]
        omega
      rw [List.takeWhile_cons_of_neg (by simpa using hle),
        List.filter_cons_of_neg (by simpa using hle), hnone]

/-- Only extended communities are non-transitive. -/
theorem nonTransitive_type (h : nonTransitive c = true) : c.type = Community.typeExt := by
  unfold nonTransitive at h
  exact (of_decide_eq_true h).1

/-- From the first community that is counted on, those of another type are not written. -/
theorem filter_dropWhile (hle : ∀ c ∈ xs, c.type ≤ t)
    (h : xs.Pairwise fun a b => a.type ≤ b.type) :
    ((xs.dropWhile fun c => c.type ≠ t ∨ ebgp ∧ nonTransitive c).filter fun c =>
        ¬(t = Community.typeExt ∧ ebgp ∧ nonTransitive c)) =
      xs.filter fun c => c.type = t ∧ ¬(ebgp ∧ nonTransitive c) := by
  induction xs with
  | nil => rfl
  | cons x rest ih =>
    obtain ⟨hx, hrest⟩ := List.pairwise_cons.mp h
    obtain ⟨hxle, hle⟩ := List.forall_mem_cons.mp hle
    by_cases hskip : x.type ≠ t ∨ ebgp ∧ nonTransitive x
    · rw [List.dropWhile_cons_of_pos (by simpa using hskip), ih hle hrest,
        List.filter_cons_of_neg]
      simp only [decide_eq_true_eq]
      tauto
    · rw [List.dropWhile_cons_of_neg (by simpa using hskip)]
      apply List.filter_congr
      intro c hc
      have htype : c.type = t := by
        rcases List.mem_cons.mp hc with rfl | hmem
        · tauto
        · have := hx c hmem
          have := hle c hmem
          have : x.type = t := by tauto
          omega
      have hnon := nonTransitive_type (c := c)
      simp only [decide_eq_decide]
      rw [← htype]
      tauto

theorem Wf.communitiesOf_eq (h : comm.Wf) (attr : CommunityAttr) (ebgp : Bool) :
    communitiesOf attr.type ebgp comm.entries = comm.sent attr ebgp := by
  have hle : comm.entries.Pairwise fun a b => a.type ≤ b.type := h.sorted.imp Before.type_le
  unfold communitiesOf sent
  rw [takeWhile_type hle, filter_dropWhile]
  · rw [List.filter_filter]
    apply List.filter_congr
    intro c _
    rw [Bool.eq_iff_iff]
    simp only [Bool.and_eq_true, decide_eq_true_eq]
    exact ⟨fun hc => hc.1, fun hc => ⟨hc, hc.1.le⟩⟩
  · intro c hc
    simpa using (List.mem_filter.mp hc).2
  · exact hle.sublist List.filter_sublist

/-! ## Bytes -/

/-- The bytes of a community. -/
def CommunityAttr.bytes (attr : CommunityAttr) (c : Community) : List UInt8 :=
  match attr with
  | .communities => beBytes 2 c.data1 ++ beBytes 2 c.data2
  | .extCommunities => extBytes c
  | .largeCommunities => beBytes 4 c.data1 ++ beBytes 4 c.data2 ++ beBytes 4 c.data3

theorem CommunityAttr.length_bytes (attr : CommunityAttr) (c : Community) :
    (attr.bytes c).length = attr.size := by
  cases attr <;> simp [CommunityAttr.bytes, CommunityAttr.size, extBytes]

theorem length_flatMap_bytes (attr : CommunityAttr) (xs : List Community) :
    (xs.flatMap attr.bytes).length = xs.length * attr.size := by
  induction xs with
  | nil => simp
  | cons x rest ih =>
    rw [List.flatMap_cons, List.length_append, ih, attr.length_bytes, List.length_cons]
    ring

/-- What fits can be written. -/
theorem communityBytes_eq (hfits : Fits c) (htype : c.flags = attr.type) :
    communityBytes attr.type c = some (attr.bytes c) := by
  cases attr with
  | communities =>
    obtain ⟨h1, h2, -⟩ := hfits.basic htype
    unfold communityBytes CommunityAttr.type CommunityAttr.bytes
    rw [if_pos rfl, if_neg (by omega)]
  | extCommunities => rfl
  | largeCommunities => rfl

theorem mapM_bytes (hfits : ∀ c ∈ xs, Fits c ∧ c.flags = attr.type) :
    xs.mapM (communityBytes attr.type) = some (xs.map attr.bytes) := by
  induction xs with
  | nil => rfl
  | cons x rest ih =>
    obtain ⟨hx, hrest⟩ := List.forall_mem_cons.mp hfits
    rw [List.mapM_cons, communityBytes_eq hx.1 hx.2, ih hrest]
    rfl

/-! ## Reading the bytes -/

/-- Insertion of sorted communities behind smaller ones. -/
theorem foldl_insertCommunity (h : (acc ++ xs).Pairwise Before) :
    xs.foldl (fun acc c => Filter.insertCommunity c acc) acc = acc ++ xs := by
  have hend : ∀ {acc : List Community} {x : Community}, (∀ y ∈ acc, Before y x) →
      Filter.insertCommunity x acc = acc ++ [x] := by
    intro acc x hacc
    induction acc with
    | nil => rfl
    | cons y rest ih =>
      obtain ⟨hy, hrest⟩ := List.forall_mem_cons.mp hacc
      unfold Before at hy
      rw [Filter.insertCommunity, if_neg (by omega), if_neg (by omega), ih hrest,
        List.cons_append]
  induction xs generalizing acc with
  | nil => simp
  | cons x rest ih =>
    have hx : ∀ y ∈ acc, Before y x := fun y hy =>
      (List.pairwise_append.mp h).2.2 y hy x List.mem_cons_self
    rw [List.foldl_cons, hend hx, ih (by simpa using h)]
    simp

theorem beNat_beBytes_of_lt {n value : ℕ} (h : value < 256 ^ n) :
    beNat (beBytes n value) = value := by
  rw [beNat_beBytes, Nat.mod_eq_of_lt h]

theorem addBasic_bytes (hfits : ∀ c ∈ xs, Fits c ∧ c.flags = Community.typeBasic) :
    Parse.addBasic (xs.flatMap (CommunityAttr.bytes .communities)) acc =
      xs.foldl (fun acc c => Filter.insertCommunity c acc) acc := by
  induction xs generalizing acc with
  | nil => rfl
  | cons x rest ih =>
    obtain ⟨hx, hrest⟩ := List.forall_mem_cons.mp hfits
    obtain ⟨h1, h2, h3⟩ := hx.1.basic hx.2
    have hself :
        x = ⟨Community.typeBasic, beNat (beBytes 2 x.data1), beNat (beBytes 2 x.data2), 0⟩ := by
      rw [beNat_beBytes_of_lt (by omega), beNat_beBytes_of_lt (by omega), ← hx.2, ← h3]
    rw [List.foldl_cons, ← ih hrest]
    conv_rhs => rw [hself]
    rfl

theorem addLarge_bytes (hfits : ∀ c ∈ xs, Fits c ∧ c.flags = Community.typeLarge) :
    Parse.addLarge xs.length (xs.flatMap (CommunityAttr.bytes .largeCommunities)) acc =
      xs.foldl (fun acc c => Filter.insertCommunity c acc) acc := by
  induction xs generalizing acc with
  | nil => rfl
  | cons x rest ih =>
    obtain ⟨hx, hrest⟩ := List.forall_mem_cons.mp hfits
    obtain ⟨h1, h2, h3⟩ := hx.1.large hx.2
    have hdrop : ∀ rest, (CommunityAttr.bytes .largeCommunities x ++ rest).drop 12 = rest :=
      fun rest => List.drop_left' (CommunityAttr.length_bytes .largeCommunities x)
    rw [List.foldl_cons, ← ih hrest, List.length_cons, Parse.addLarge, List.flatMap_cons, hdrop]
    congr 2
    unfold CommunityAttr.bytes
    dsimp only
    simp only [List.append_assoc]
    rw [List.take_left' (length_beBytes 4 _), List.drop_left' (length_beBytes 4 _),
      List.take_left' (length_beBytes 4 _), ← List.append_assoc, List.drop_left' (by simp),
      List.take_left' (length_beBytes 4 _), beNat_beBytes_of_lt (by omega),
      beNat_beBytes_of_lt (by omega), beNat_beBytes_of_lt (by omega), ← hx.2]

/-- The eight bytes of an extended community as a number. -/
theorem beNat_extBytes (hfits : Fits c) (hext : c.flags = Community.typeExt) :
    beNat (extBytes c) = c.data3 * 2 ^ 48 +
      if LongFirst c then c.data1 * 2 ^ 16 + c.data2 else c.data1 * 2 ^ 32 + c.data2 := by
  obtain ⟨htype, hlong, hshort⟩ := hfits.ext hext
  have hvalue : (((c.data3 / 256 % 64 : ℕ) : ℤ) = Community.extTransFourAs ∨
      ((c.data3 / 256 % 64 : ℕ) : ℤ) = Community.extTransIpv4) ↔ LongFirst c := by
    unfold LongFirst Community.extTransFourAs Community.extTransIpv4
    omega
  unfold extBytes
  dsimp only
  simp only [hvalue]
  rw [beNat_beBytes]
  split_ifs with hfirst
  · have := hlong hfirst
    omega
  · have := hshort hfirst
    omega

/-- The parts of the number of an extended community. -/
theorem extBytes_parts (hfits : Fits c) (hext : c.flags = Community.typeExt) :
    beNat (extBytes c) / 2 ^ 48 = c.data3 ∧ beNat (extBytes c) / 2 ^ 56 = c.data3 / 256 ∧
      (LongFirst c → beNat (extBytes c) / 2 ^ 16 % 2 ^ 32 = c.data1 ∧
        beNat (extBytes c) % 2 ^ 16 = c.data2) ∧
      (¬ LongFirst c → beNat (extBytes c) / 2 ^ 32 % 2 ^ 16 = c.data1 ∧
        beNat (extBytes c) % 2 ^ 32 = c.data2) := by
  obtain ⟨htype, hlong, hshort⟩ := hfits.ext hext
  have hnumber := beNat_extBytes hfits hext
  obtain ⟨n, hn⟩ : ∃ n, n = beNat (extBytes c) := ⟨_, rfl⟩
  rw [← hn] at hnumber ⊢
  by_cases hfirst : LongFirst c
  · obtain ⟨h1, h2⟩ := hlong hfirst
    rw [if_pos hfirst] at hnumber
    exact ⟨by omega, by omega, fun _ => by omega, fun h => absurd hfirst h⟩
  · obtain ⟨h1, h2⟩ := hshort hfirst
    rw [if_neg hfirst] at hnumber
    exact ⟨by omega, by omega, fun h => absurd h hfirst, fun _ => by omega⟩

/-- An extended community is the same after it was written and read. -/
theorem extCommunity_extBytes (hfits : Fits c) (hext : c.flags = Community.typeExt) :
    extCommunity (beNat (extBytes c)) = c := by
  obtain ⟨hdata3, hhigh, hlong, hshort⟩ := extBytes_parts hfits hext
  obtain ⟨n, hn⟩ : ∃ n, n = beNat (extBytes c) := ⟨_, rfl⟩
  rw [← hn] at hdata3 hhigh hlong hshort ⊢
  have hvalue : (((n / 2 ^ 56 % 2 ^ 6 : ℕ) : ℤ) = Community.extTransFourAs ∨
      ((n / 2 ^ 56 % 2 ^ 6 : ℕ) : ℤ) = Community.extTransIpv4) ↔ LongFirst c := by
    rw [hhigh]
    unfold LongFirst Community.extTransFourAs Community.extTransIpv4
    omega
  unfold extCommunity
  simp only [hvalue, hdata3]
  by_cases hfirst : LongFirst c
  · rw [if_pos hfirst, (hlong hfirst).1, (hlong hfirst).2, ← hext]
  · rw [if_neg hfirst, (hshort hfirst).1, (hshort hfirst).2, ← hext]

theorem testBit_extBytes (hfits : Fits c) (hext : c.flags = Community.typeExt) :
    (beNat (extBytes c) / 2 ^ 56).testBit 6 = nonTransitive c := by
  have hknown : c.type = Community.typeExt := (Known.type_eq (.inr (.inl hext))).trans hext
  rw [(extBytes_parts hfits hext).2.1]
  simp [nonTransitive, hknown]

theorem addExt_succ (ebgp : Bool) (n : ℕ) (buf : List UInt8) (acc : List Community) :
    Parse.addExt ebgp (n + 1) buf acc = Parse.addExt ebgp n (buf.drop 8)
      (if ebgp ∧ (beNat (buf.take 8) / 2 ^ 56).testBit 6 then acc
      else Filter.insertCommunity (extCommunity (beNat (buf.take 8))) acc) := rfl

theorem addExt_bytes {ebgp : Bool} (hfits : ∀ c ∈ xs, Fits c ∧ c.flags = Community.typeExt)
    (hebgp : ∀ c ∈ xs, ¬(ebgp = true ∧ nonTransitive c = true)) :
    Parse.addExt ebgp xs.length (xs.flatMap (CommunityAttr.bytes .extCommunities)) acc =
      xs.foldl (fun acc c => Filter.insertCommunity c acc) acc := by
  induction xs generalizing acc with
  | nil => rfl
  | cons x rest ih =>
    obtain ⟨hx, hrest⟩ := List.forall_mem_cons.mp hfits
    obtain ⟨hxtrans, htrans⟩ := List.forall_mem_cons.mp hebgp
    have hlength : (CommunityAttr.bytes .extCommunities x).length = 8 :=
      CommunityAttr.length_bytes .extCommunities x
    have hbytes : CommunityAttr.bytes .extCommunities x = extBytes x := rfl
    rw [List.foldl_cons, ← ih hrest htrans, List.length_cons, addExt_succ, List.flatMap_cons,
      List.drop_left' hlength, List.take_left' hlength, hbytes, testBit_extBytes hx.1 hx.2,
      extCommunity_extBytes hx.1 hx.2, if_neg hxtrans]

/-- The bytes of sorted communities give these communities again. -/
theorem parse_bytes (flags : UInt8) {ebgp : Bool} (hne : xs ≠ []) (hsorted : xs.Pairwise Before)
    (hfits : ∀ c ∈ xs, Fits c ∧ c.flags = attr.type)
    (hebgp : ∀ c ∈ xs, ¬(ebgp = true ∧ nonTransitive c = true)) :
    ∃ after, communityParse attr flags ebgp (xs.flatMap attr.bytes) = some after ∧
      after.entries = xs := by
  have hlength := length_flatMap_bytes attr xs
  have hpos : 0 < xs.length := List.length_pos_iff.mpr hne
  have hsize : 0 < attr.size := by cases attr <;> decide
  have hmul : 0 < xs.length * attr.size := Nat.mul_pos hpos hsize
  have hmod : xs.length * attr.size % attr.size = 0 := Nat.mul_mod_left _ _
  have hdiv : xs.length * attr.size / attr.size = xs.length := Nat.mul_div_cancel _ hsize
  -- the values arrive in order, so each one is inserted at the end
  have hfold : xs.foldl (fun acc c => Filter.insertCommunity c acc) [] = xs :=
    @foldl_insertCommunity xs [] hsorted
  unfold CommunityAttr.size at hmul hmod hdiv hlength
  cases attr with
  | communities =>
    have hempty : Wf { partialBasic := true } := ⟨rfl, Nat.le_refl 0, .nil, by simp [entries]⟩
    unfold communityParse communityAdd
    dsimp only at *
    rw [if_neg (by omega)]
    refine ⟨_, rfl, ?_⟩
    -- the partial bit selects one of two empty arrays
    split_ifs
    · rw [(hempty.addBasic _).2, addBasic_bytes hfits]
      exact hfold
    · rw [(wf_empty.addBasic _).2, addBasic_bytes hfits]
      exact hfold
  | extCommunities =>
    have hempty : Wf { partialExt := true } := ⟨rfl, Nat.le_refl 0, .nil, by simp [entries]⟩
    unfold communityParse communityExtAdd
    dsimp only at *
    rw [if_neg (by omega), hlength, hdiv]
    refine ⟨_, rfl, ?_⟩
    split_ifs
    · rw [(hempty.addExt _ _ _).2, addExt_bytes hfits hebgp]
      exact hfold
    · rw [(wf_empty.addExt _ _ _).2, addExt_bytes hfits hebgp]
      exact hfold
  | largeCommunities =>
    have hempty : Wf { partialLarge := true } := ⟨rfl, Nat.le_refl 0, .nil, by simp [entries]⟩
    unfold communityParse communityLargeAdd
    dsimp only at *
    rw [if_neg (by omega), hlength, hdiv]
    refine ⟨_, rfl, ?_⟩
    split_ifs
    · rw [(hempty.addLarge _ _).2, addLarge_bytes hfits]
      exact hfold
    · rw [(wf_empty.addLarge _ _).2, addLarge_bytes hfits]
      exact hfold

/-! ## The partial flag -/

@[simp] theorem isPartial_insert (comm : CommunityArray) (c : Community) (attr : CommunityAttr) :
    (comm.insert c).isPartial attr = comm.isPartial attr := by
  unfold insert grow
  dsimp only
  split_ifs
  all_goals
    split
    · rfl
    · rfl

theorem isPartial_addBasic (buf : List UInt8) (comm : CommunityArray) (attr : CommunityAttr) :
    (comm.addBasic buf).isPartial attr = comm.isPartial attr := by
  induction buf, comm using addBasic.induct with
  | case1 comm a b x y buf ih => exact ih.trans (isPartial_insert _ _ attr)
  | case2 buf comm hshort =>
    rw [addBasic]
    exact hshort

theorem isPartial_addLarge (n : ℕ) (buf : List UInt8) (comm : CommunityArray)
    (attr : CommunityAttr) : (comm.addLarge n buf).isPartial attr = comm.isPartial attr := by
  induction n generalizing buf comm with
  | zero => rfl
  | succ n ih => exact (ih _ _).trans (isPartial_insert _ _ attr)

theorem isPartial_addExt (ebgp : Bool) (n : ℕ) (buf : List UInt8) (comm : CommunityArray)
    (attr : CommunityAttr) : (comm.addExt ebgp n buf).isPartial attr = comm.isPartial attr := by
  induction n generalizing buf comm with
  | zero => rfl
  | succ n ih =>
    unfold addExt
    dsimp only
    rw [ih]
    split_ifs
    · rfl
    · exact isPartial_insert _ _ attr

/-- The partial flag of an attribute is kept. -/
theorem isPartial_parse {flags : UInt8} {ebgp : Bool} {data : List UInt8} {after : CommunityArray}
    (h : communityParse attr flags ebgp data = some after) :
    after.isPartial attr = decide (flags &&& attrPartial ≠ 0) := by
  cases attr with
  | communities =>
    unfold communityParse communityAdd at h
    obtain ⟨-, h⟩ := Option.ite_none_left_eq_some.mp h
    rw [← Option.some.inj h, isPartial_addBasic]
    split_ifs with hflag <;> simp [isPartial, hflag]
  | extCommunities =>
    unfold communityParse communityExtAdd at h
    obtain ⟨-, h⟩ := Option.ite_none_left_eq_some.mp h
    rw [← Option.some.inj h, isPartial_addExt]
    split_ifs with hflag <;> simp [isPartial, hflag]
  | largeCommunities =>
    unfold communityParse communityLargeAdd at h
    obtain ⟨-, h⟩ := Option.ite_none_left_eq_some.mp h
    rw [← Option.some.inj h, isPartial_addLarge]
    split_ifs with hflag <;> simp [isPartial, hflag]

/-! ## The header -/

/-- The flags of an attribute of communities. -/
def attrFlags (isPartial : Bool) : UInt8 :=
  attrOptional ||| attrTransitive ||| if isPartial then attrPartial else 0

/-- The flags in the header. -/
def writtenFlags (isPartial : Bool) (len : ℕ) : UInt8 :=
  attrFlags isPartial ||| if 255 < len then attrExtlen else 0

theorem writtenFlags_partial (isPartial : Bool) (len : ℕ) :
    decide (writtenFlags isPartial len &&& attrPartial ≠ 0) = isPartial := by
  unfold writtenFlags
  cases isPartial <;> split_ifs <;> decide

/-- The length in the header is that of the bytes behind it. -/
theorem getAttr_header (isPartial : Bool) (type : UInt8) {data : List UInt8}
    (h : data.length < 2 ^ 16) (rest : List UInt8) :
    getAttr (attrHeader (attrFlags isPartial) type data.length ++ data ++ rest) =
      some (⟨writtenFlags isPartial data.length, type, data,
        attrHeader (attrFlags isPartial) type data.length ++ data⟩, rest) := by
  have hmask : attrFlags isPartial &&& ~~~attrDefmask = attrFlags isPartial := by
    cases isPartial <;> decide
  unfold attrHeader writtenFlags
  rw [hmask]
  by_cases hlong : 255 < data.length
  · have hext : (attrFlags isPartial ||| attrExtlen) &&& attrExtlen ≠ 0 := by
      cases isPartial <;> decide
    have hlen : (UInt32.ofNat ((UInt8.ofNat (data.length / 256)).toNat * 2 ^ 8 +
        (UInt8.ofNat data.length).toNat)).toNat = data.length := by
      simp only [UInt8.toNat_ofNat', UInt32.toNat_ofNat']
      omega
    simp only [hlong, ↓reduceIte, beBytes, List.nil_append, List.cons_append, getAttr, hext, ne_eq,
      not_false_eq_true, As4.ibufGetN16, Option.map_some, Option.bind_eq_bind,
        Option.bind_some, hlen]
    rw [if_neg (by simp only [List.length_cons, List.length_append]; omega), Nat.add_comm 4]
    simp
  · have hext : ¬ (attrFlags isPartial ||| 0) &&& attrExtlen ≠ 0 := by
      cases isPartial <;> decide
    have hlen : (UInt8.ofNat data.length).toNat = data.length := by
      simp only [UInt8.toNat_ofNat']
      omega
    have hzero : attrFlags isPartial ||| 0 = attrFlags isPartial := by cases isPartial <;> rfl
    rw [hzero] at hext
    simp only [hlong, ↓reduceIte, List.nil_append, List.cons_append, getAttr, hext, hzero,
      Nlri.ibufGetN8, Option.map_some, Option.bind_eq_bind, Option.bind_some, hlen]
    rw [if_neg (by simp only [List.length_cons, List.length_append]; omega), Nat.add_comm 3]
    simp

/-! ## Round trip -/

theorem ibufAdd_ibufAdd (max : ℕ) (header data buf : List UInt8) :
    (ibufAdd max header buf).bind (ibufAdd max data) =
      if max < buf.length + (header ++ data).length then none
      else some (buf ++ (header ++ data)) := by
  unfold ibufAdd
  rw [List.length_append]
  by_cases hheader : max < buf.length + header.length
  · rw [if_pos hheader, if_pos (by omega)]
    rfl
  · rw [if_neg hheader, Option.bind_some, List.length_append, List.append_assoc, Nat.add_assoc]

/-- What is written: nothing if there is nothing to be sent, an attribute otherwise, unless there
    are too many communities for it. -/
theorem Wf.communityWritebuf_eq (h : comm.Wf) (hfits : ∀ c ∈ comm.entries, Fits c) (max : ℕ)
    (attr : CommunityAttr) (ebgp : Bool) (buf : List UInt8) :
    comm.communityWritebuf max attr ebgp buf =
      if comm.sent attr ebgp = [] then some buf
      else if 32767 / attr.size < (comm.sent attr ebgp).length then none
      else attrWritebuf max (attrFlags (comm.isPartial attr)) attr.code
        ((comm.sent attr ebgp).flatMap attr.bytes) buf := by
  have hsent : ∀ c ∈ comm.sent attr ebgp, Fits c ∧ c.flags = attr.type := by
    intro c hc
    obtain ⟨hmem, hc⟩ := List.mem_filter.mp hc
    exact ⟨hfits c hmem, (h.known c hmem).type_eq ▸ (of_decide_eq_true hc).1⟩
  unfold communityWritebuf Msg.communityWritebuf
  dsimp only
  rw [h.communitiesOf_eq]
  by_cases hnil : comm.sent attr ebgp = []
  · rw [if_pos hnil, if_pos (List.length_eq_zero_iff.mpr hnil)]
    rfl
  · rw [if_neg hnil, if_neg (fun hlen => hnil (List.length_eq_zero_iff.mp hlen))]
    by_cases hmany : 32767 / attr.size < (comm.sent attr ebgp).length
    · rw [if_pos hmany, if_pos hmany]
      rfl
    · rw [if_neg hmany, if_neg hmany, mapM_bytes hsent]
      rfl

/-- The attributes of communities for every list that comes about. If no community of the type is to
    be sent nothing is written. If there are too many for an attribute nothing is written either,
    the return value says so. Otherwise an attribute is written if there is room for it; its length
    is that of the bytes behind the header, and reading them gives the communities that were to be
    sent and the partial flag. -/
theorem writebuf_roundtrip (ops : List CommunityOp) (hops : ∀ op ∈ ops, op.Ok) (max : ℕ)
    (attr : CommunityAttr) (ebgp : Bool) (buf : List UInt8) :
    ((run ops).sent attr ebgp = [] →
      (run ops).communityWritebuf max attr ebgp buf = some buf) ∧
    (32767 / attr.size < ((run ops).sent attr ebgp).length →
      (run ops).communityWritebuf max attr ebgp buf = none) ∧
    ((run ops).sent attr ebgp ≠ [] → ((run ops).sent attr ebgp).length ≤ 32767 / attr.size →
      ∃ (flags : UInt8) (data bytes : List UInt8), bytes ≠ [] ∧
        (run ops).communityWritebuf max attr ebgp buf =
          (if max < buf.length + bytes.length then none else some (buf ++ bytes)) ∧
        (∀ rest, getAttr (bytes ++ rest) = some (⟨flags, attr.code, data, bytes⟩, rest)) ∧
        ∀ ebgp' : Bool, (ebgp' = true → ebgp = true) →
          ∃ after, communityParse attr flags ebgp' data = some after ∧
            after.entries = (run ops).sent attr ebgp ∧
            after.isPartial attr = (run ops).isPartial attr) := by
  have h := run_wf ops
  have hfits := run_fits ops hops
  have hsent : ∀ c ∈ (run ops).sent attr ebgp, Fits c ∧ c.flags = attr.type := by
    intro c hc
    obtain ⟨hmem, hc⟩ := List.mem_filter.mp hc
    exact ⟨hfits c hmem, (h.known c hmem).type_eq ▸ (of_decide_eq_true hc).1⟩
  have hsize : 0 < attr.size := by cases attr <;> decide
  rw [h.communityWritebuf_eq hfits]
  refine ⟨fun hnil => if_pos hnil, fun hmany => ?_, fun hne hfew => ?_⟩
  -- too many for the 16 bit length
  · have hne : (run ops).sent attr ebgp ≠ [] := by
      intro hnil
      rw [hnil] at hmany
      exact Nat.not_lt_zero _ hmany
    rw [if_neg hne, if_pos hmany]
  -- the value fits in an attribute, with the extended length where it needs it
  · obtain ⟨data, hdata⟩ : ∃ data, data = ((run ops).sent attr ebgp).flatMap attr.bytes := ⟨_, rfl⟩
    have hlength : data.length < 2 ^ 16 := by
      rw [hdata, length_flatMap_bytes]
      have := (Nat.le_div_iff_mul_le hsize).mp hfew
      omega
    rw [if_neg hne, if_neg (Nat.not_lt.mpr hfew), ← hdata]
    refine ⟨writtenFlags ((run ops).isPartial attr) data.length, data,
      attrHeader (attrFlags ((run ops).isPartial attr)) attr.code data.length ++
        data, ?_, ?_, ?_, ?_⟩
    · unfold attrHeader
      dsimp only
      split_ifs <;> simp
    · exact ibufAdd_ibufAdd max _ data buf
    · exact getAttr_header _ _ hlength
    -- a receiver that is no external neighbour, or a sender that left these out
    · intro ebgp' hebgp
      have htrans : ∀ c ∈ (run ops).sent attr ebgp,
          ¬(ebgp' = true ∧ nonTransitive c = true) := by
        intro c hc hand
        exact (of_decide_eq_true (List.mem_filter.mp hc).2).2 ⟨hebgp hand.1, hand.2⟩
      obtain ⟨after, hparse, hentries⟩ := parse_bytes
        (writtenFlags ((run ops).isPartial attr) data.length) hne
        (h.sorted.sublist List.filter_sublist) hsent htrans
      rw [← hdata] at hparse
      refine ⟨after, hparse, hentries, ?_⟩
      rw [isPartial_parse hparse, writtenFlags_partial]

/-- Received are one basic community, `rt 65000:1` and a non-transitive extended one; a filter sets
    `rt neighbor-as:7`. -/
def sampleOps : List CommunityOp :=
  [.add 0xe0 [0, 1, 0, 2],
    .extAdd 0xe0 false [0, 2, 0xfd, 0xe8, 0, 0, 0, 1, 0x43, 0, 0, 0, 0, 0, 0, 2],
    .set ⟨⟨Community.typeExt + 256 * Community.neighborAs, 0, 7, 2⟩, .inr (.inl rfl)⟩
      ⟨65001, 65000⟩]

/-- An eBGP peer gets the transitive ones of the extended communities, that of the filter too. -/
theorem writebuf_roundtrip_sample :
    ((run sampleOps).sent .extCommunities true).map (fun c => (c.data1, c.data2)) =
        [(65000, 1), (65001, 7)] ∧
      ∃ (flags : UInt8) (data bytes : List UInt8), bytes ≠ [] ∧
        (run sampleOps).communityWritebuf 4096 .extCommunities true [] =
          (if 4096 < 0 + bytes.length then none else some ([] ++ bytes)) ∧
        (∀ rest, getAttr (bytes ++ rest) = some (⟨flags, 16, data, bytes⟩, rest)) ∧
        ∀ ebgp' : Bool, (ebgp' = true → true = true) →
          ∃ after, communityParse .extCommunities flags ebgp' data = some after ∧
            after.entries = (run sampleOps).sent .extCommunities true ∧
            after.isPartial .extCommunities = (run sampleOps).isPartial .extCommunities := by
  have hops : ∀ op ∈ sampleOps, op.Ok := by
    simp only [sampleOps, List.forall_mem_cons, List.not_mem_nil, false_imp_iff, implies_true,
      and_true]
    refine ⟨trivial, trivial, .inr ⟨?_, ?_, ?_⟩, by decide, by decide⟩
    · decide
    · decide
    · decide
  exact ⟨by decide +kernel, (writebuf_roundtrip sampleOps hops 4096 .extCommunities true []).2.2
    (by decide +kernel) (by decide +kernel)⟩

/-- Communities with the first number from 0 on. -/
def numbered (n : ℕ) : List Community :=
  (List.range n).map fun i => ⟨Community.typeBasic, i, 0, 0⟩

theorem numbered_sorted (n : ℕ) : (numbered n).Pairwise Before := by
  apply List.pairwise_map.mpr
  apply List.pairwise_lt_range.imp
  intro i j hij
  rw [before_iff]
  exact .inr ⟨rfl, .inl hij⟩

theorem numbered_fits {n : ℕ} (hn : n ≤ 2 ^ 16) :
    ∀ c ∈ numbered n, Fits c ∧ c.flags = CommunityAttr.type .communities := by
  intro c hc
  obtain ⟨i, hi, rfl⟩ := List.mem_map.mp hc
  have hlt : i < 2 ^ 16 := Nat.lt_of_lt_of_le (List.mem_range.mp hi) hn
  refine ⟨⟨fun _ => ⟨hlt, by norm_num, rfl⟩, fun hb => ?_, fun hb => ?_⟩, rfl⟩
  · simp [Community.typeBasic, Community.typeExt] at hb
  · simp [Community.typeBasic, Community.typeLarge] at hb

/-- More than 8191 communities, as an extended message can have them, are not sent. -/
theorem many_not_written : ∃ ops : List CommunityOp, (∀ op ∈ ops, op.Ok) ∧
    (run ops).sent .communities true ≠ [] ∧
    ∀ max buf, (run ops).communityWritebuf max .communities true buf = none := by
  have hlength : (numbered 8192).length = 8192 := by simp [numbered]
  have hne : numbered 8192 ≠ [] := by
    intro hnil
    rw [hnil] at hlength
    simp at hlength
  have hfits := numbered_fits (n := 8192) (by norm_num)
  have hebgp : ∀ c ∈ numbered 8192, ¬(false = true ∧ nonTransitive c = true) := by simp
  obtain ⟨after, hparse, hentries⟩ :=
    parse_bytes 0xc0 hne (numbered_sorted 8192) hfits hebgp
  obtain ⟨ops, hops⟩ : ∃ ops : List CommunityOp, ops =
      [.add 0xc0 ((numbered 8192).flatMap (CommunityAttr.bytes .communities))] := ⟨_, rfl⟩
  have hok : ∀ op ∈ ops, op.Ok := by
    rw [hops]
    simp [CommunityOp.Ok]
  have hrun : run ops = after := by
    rw [hops]
    unfold run
    rw [List.foldl_cons, List.foldl_nil]
    unfold apply
    dsimp only
    unfold communityParse at hparse
    dsimp only at hparse
    rw [hparse, Option.getD_some]
  -- all of them are basic communities, so all of them are to be sent
  have hsent : (run ops).sent .communities true = numbered 8192 := by
    rw [sent, hrun, hentries]
    apply List.filter_eq_self.mpr
    intro c hc
    have htype : c.type = Community.typeBasic :=
      (Known.type_eq (.inl (hfits c hc).2)).trans (hfits c hc).2
    have hnon : nonTransitive c = false := by
      rw [Bool.eq_false_iff]
      intro hnon
      exact absurd (htype.symm.trans (nonTransitive_type hnon)) (by decide)
    simp [htype, hnon, CommunityAttr.type]
  refine ⟨ops, hok, hsent ▸ hne, fun max buf => ?_⟩
  rw [(run_wf ops).communityWritebuf_eq (run_fits ops hok), hsent, if_neg hne, hlength]
  rfl

end CommunityArray

end Bgpd.Rde
