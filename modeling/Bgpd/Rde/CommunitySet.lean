import Bgpd.Rde.CommunityRun

/-!
# Setting, Matching and Deleting a Community

A filter can set the community that it matches on, and delete it. `fc2c` expands it in all three
cases; `community_set` has no masks and rewrites the type of an extended community to the one for
the size of the AS. The type that is written has none of the bits above the value, so that what was
set is not what the filter matches on if its type had some.

## Main results

- `communityDelete_agrees`: after a deletion exactly what was asked for is gone
- `set_match_delete_iff`: when what was set is matched
-/

namespace Bgpd.Rde

namespace CommunityArray

open Communities

variable {a b c fc test mask set : Community} {comm : CommunityArray} {peer : PeerAs}

/-! ## Types of extended communities -/

/-- The bits of the type of an extended community. -/
def extTypeBits (fc : Community) : ℕ := fc.data3 / 256 % 2 ^ 24

theorem extType_emod (fc : Community) :
    extType fc % (Community.extValue + 1) = (extTypeBits fc % 64 : ℕ) := by
  unfold extType extTypeBits Community.extValue
  split_ifs <;> omega

theorem toNat_extType (fc : Community) : (extType fc % 2 ^ 24).toNat = extTypeBits fc := by
  unfold extType extTypeBits
  split_ifs <;> omega

theorem extTypeBits_lt (fc : Community) : extTypeBits fc < 2 ^ 24 := Nat.mod_lt _ (by decide)

/-- The mask without the bit in which the types of the two sizes of AS numbers differ. -/
def asMask : ℕ := 0xfffffdff

theorem and_asMask (x : ℕ) : x &&& asMask = x / 1024 % 2 ^ 22 * 1024 + x % 512 := by
  have hdiv : (x &&& asMask) / 2 ^ 10 = x / 2 ^ 10 % 2 ^ 22 := by
    rw [Nat.and_div_two_pow, show asMask / 2 ^ 10 = 2 ^ 22 - 1 by decide,
      Nat.and_two_pow_sub_one_eq_mod]
  have hmod : (x &&& asMask) % 2 ^ 10 = x % 2 ^ 10 % 2 ^ 9 := by
    rw [Nat.and_mod_two_pow, show asMask % 2 ^ 10 = 2 ^ 9 - 1 by decide,
      Nat.and_two_pow_sub_one_eq_mod]
  omega

/-- Under the mask a type that has only the size of the AS is the one with the same other bits. -/
theorem and_asMask_type {type bits sub : ℕ} (htype : type = 0 ∨ type = 2) (hbits : bits < 2 ^ 24)
    (hsub : sub < 256) :
    (type * 256 + sub) &&& asMask = (bits * 256 + sub) &&& asMask ↔ bits = 0 ∨ bits = 2 := by
  rw [and_asMask, and_asMask]
  omega

/-! ## What is set -/

/-- The number that a field of a filter community stands for. -/
def asNumber (num flag : ℕ) (peer : PeerAs) : ℕ :=
  if flag = Community.neighborAs then peer.remoteAs
  else if flag = Community.localAs then peer.localAs
  else num

theorem applyFlag_eq {num flag : ℕ} (h : flag ≠ Community.any) (peer : PeerAs) (m : Bool) :
    applyFlag num flag (some peer) m = some (asNumber num flag peer, uint32Max) := by
  unfold applyFlag asNumber
  rw [if_neg h]
  split_ifs <;> rfl

theorem applyFlag_any (num : ℕ) (peer : Option PeerAs) :
    applyFlag num Community.any peer false = none := rfl

/-- The type of a community has the value of one with an AS. -/
def AsValue (fc : Community) : Prop := extTypeBits fc % 64 = 0 ∨ extTypeBits fc % 64 = 2

/-- No field of an extended community can be any number. -/
def NoWildcard (fc : Community) : Prop :=
  fc.meaning 1 ≠ Community.any ∧ fc.meaning 2 ≠ Community.any ∧ fc.meaning 3 ≠ Community.any

/-- The community with an AS that a filter community stands for. -/
def asCommunity (fc : Community) (peer : PeerAs) : Community :=
  ⟨fc.type, asNumber fc.data1 (fc.meaning 1) peer, asNumber fc.data2 (fc.meaning 2) peer,
    extTypeBits fc * 256 + fc.data3 % 256⟩

/-- The mask for it. -/
def asMasks : Community := ⟨uint32Max, uint32Max, uint32Max, asMask⟩

theorem extTypeBits_asCommunity (fc : Community) (peer : PeerAs) :
    extTypeBits (asCommunity fc peer) = extTypeBits fc := by
  have := extTypeBits_lt fc
  show (extTypeBits fc * 256 + fc.data3 % 256) / 256 % 2 ^ 24 = extTypeBits fc
  omega

theorem asValue_asCommunity (h : AsValue fc) (peer : PeerAs) : AsValue (asCommunity fc peer) := by
  rwa [AsValue, extTypeBits_asCommunity]

theorem type_asCommunity (fc : Community) (peer : PeerAs) : (asCommunity fc peer).type = fc.type :=
  Nat.mod_mod _ _

theorem fc2c_as (hext : fc.type = Community.typeExt) (hvalue : AsValue fc) (hany : NoWildcard fc)
    (m : Bool) : fc2c fc (some peer) m = some (asCommunity fc peer, asMasks) := by
  have hemod := extType_emod fc
  have hval : extType fc % (Community.extValue + 1) = Community.extTransTwoAs ∨
      extType fc % (Community.extValue + 1) = Community.extTransFourAs := by
    rw [hemod]
    rcases hvalue with h | h <;> simp [h, Community.extTransTwoAs, Community.extTransFourAs]
  have hne : extType fc ≠ -1 := by
    intro h
    rw [h] at hemod
    unfold AsValue at hvalue
    unfold Community.extValue at hemod
    omega
  unfold fc2c
  simp only [hext, Community.typeExt, Community.typeBasic, Community.typeLarge, hany.1,
    hany.2.2, hne,
    hval, ↓reduceIte, applyFlag_eq hany.1, applyFlag_eq hany.2.1, toNat_extType]
  simp [asCommunity, asMasks, asMask, hext, Community.typeExt]

theorem applyFlag_true {num flag : ℕ} {peer : Option PeerAs} {r : ℕ × ℕ}
    (h : applyFlag num flag peer false = some r) : applyFlag num flag peer true = some r := by
  unfold applyFlag at *
  split_ifs at * <;> simp_all

/-- Whatever one expansion gives, the other one gives as well. -/
def LeOpt {α : Type} (x y : Option α) : Prop := ∀ r, x = some r → y = some r

theorem LeOpt.refl {α : Type} (x : Option α) : LeOpt x x := fun _ h => h

theorem LeOpt.none {α : Type} (y : Option α) : LeOpt none y := fun _ h => by cases h

theorem LeOpt.bind {α β : Type} {x y : Option α} {f g : α → Option β} (h : LeOpt x y)
    (hf : ∀ a, LeOpt (f a) (g a)) : LeOpt (x >>= f) (y >>= g) := by
  intro r hr
  obtain ⟨a, ha, hr⟩ := Option.bind_eq_some_iff.mp hr
  exact Option.bind_eq_some_iff.mpr ⟨a, h a ha, hf a r hr⟩

theorem LeOpt.ite {α : Type} {c : Prop} [Decidable c] {x y x' y' : Option α} (hx : LeOpt x x')
    (hy : LeOpt y y') : LeOpt (if c then x else y) (if c then x' else y') := by
  split_ifs
  · exact hx
  · exact hy

theorem leOpt_applyFlag (num flag : ℕ) (peer : Option PeerAs) :
    LeOpt (applyFlag num flag peer false) (applyFlag num flag peer true) :=
  fun _ h => applyFlag_true h

/-- Two numbers are expanded, one after the other. -/
theorem leOpt_two {peer : Option PeerAs} {n₁ f₁ n₂ f₂ : ℕ} {α : Type}
    (g : ℕ × ℕ → ℕ × ℕ → Option α) :
    LeOpt (applyFlag n₁ f₁ peer false >>= fun x => applyFlag n₂ f₂ peer false >>= g x)
      (applyFlag n₁ f₁ peer true >>= fun x => applyFlag n₂ f₂ peer true >>= g x) :=
  (leOpt_applyFlag n₁ f₁ peer).bind fun x => (leOpt_applyFlag n₂ f₂ peer).bind fun y =>
    LeOpt.refl (g x y)

/-- What can be expanded without masks has the same expansion with masks. -/
theorem fc2c_true {peer : Option PeerAs} {r : Community × Community}
    (h : fc2c fc peer false = some r) : fc2c fc peer true = some r := by
  suffices hle : LeOpt (fc2c fc peer false) (fc2c fc peer true) from hle r h
  unfold fc2c
  apply LeOpt.ite (leOpt_two _)
  apply LeOpt.ite
  · exact (leOpt_applyFlag _ _ peer).bind fun _ => leOpt_two _
  apply LeOpt.ite _ (LeOpt.refl _)
  apply LeOpt.ite
  · exact LeOpt.none _
  apply LeOpt.ite
  · have hnone : fc.meaning 1 ≠ Community.any ∨ (!false) = true := .inr rfl
    rw [if_pos hnone]
    exact LeOpt.none _
  apply LeOpt.ite
  · exact LeOpt.none _
  apply LeOpt.ite (leOpt_two _)
  exact LeOpt.ite (leOpt_two _) (LeOpt.refl _)

theorem asValue_iff (fc : Community) : AsValue fc ↔
    extType fc % (Community.extValue + 1) = Community.extTransTwoAs ∨
      extType fc % (Community.extValue + 1) = Community.extTransFourAs := by
  rw [extType_emod]
  unfold AsValue Community.extTransTwoAs Community.extTransFourAs
  omega

/-- Without masks an extended community is expanded only if neither its first number nor the whole
    of it can be anything, and then its type goes through as it is. -/
theorem fc2c_ext {peer : Option PeerAs} (hext : fc.type = Community.typeExt)
    (h : fc2c fc peer false = some (test, mask)) :
    fc.meaning 1 ≠ Community.any ∧ fc.meaning 3 ≠ Community.any ∧
      (AsValue fc → NoWildcard fc) ∧ test.data3 = extTypeBits fc * 256 + fc.data3 % 256 := by
  unfold fc2c at h
  simp only [hext, Community.typeExt, Community.typeBasic, Community.typeLarge, toNat_extType,
    Nat.reduceEqDiff, ↓reduceIte] at h
  split_ifs at h with hany hmask hrt hfirst hfirst hmask has hip
  · exact hmask.elim
  · simp at hfirst
  · exact hmask.elim
  · simp only [Option.bind_eq_bind, Option.bind_eq_some_iff, Prod.exists] at h
    obtain ⟨data1, mask1, h1, data2, mask2, h2, hr⟩ := h
    have hsecond : fc.meaning 2 ≠ Community.any := by
      intro heq
      rw [heq, applyFlag_any] at h2
      cases h2
    cases hr
    exact ⟨hfirst, hany, fun _ => ⟨hfirst, hsecond, hany⟩, rfl⟩
  · simp only [Option.bind_eq_bind, Option.bind_eq_some_iff, Prod.exists,
      Option.ite_none_left_eq_some] at h
    obtain ⟨data1, mask1, h1, data2, mask2, h2, hfits, hr⟩ := h
    cases hr
    exact ⟨hfirst, hany, fun hvalue => absurd ((asValue_iff fc).mp hvalue) has, rfl⟩
  · cases h
    exact ⟨hfirst, hany, fun hvalue => absurd ((asValue_iff fc).mp hvalue) has, rfl⟩

/-! ## The type that is written -/

/-- `community_set` writes a type without the bits above the value: an extended community with an
    AS is set of which no field can be anything, its numbers fit, and its type is neither of the two
    that are written. -/
structure TypeLost (fc : Community) (peer : PeerAs) : Prop where
  expanded : fc.flags / 256 ≠ 0
  ext : fc.type = Community.typeExt
  value : AsValue fc
  exact : NoWildcard fc
  fits : ¬(ushrtMax < asNumber fc.data1 (fc.meaning 1) peer ∧
    ushrtMax < asNumber fc.data2 (fc.meaning 2) peer)
  upper : extTypeBits fc ≠ 0 ∧ extTypeBits fc ≠ 2

theorem extFits_as (hext : a.type = Community.typeExt) (hvalue : AsValue a) :
    Filter.extFits a = if ushrtMax < a.data1 ∧ ushrtMax < a.data2 then none
      else some
        { a with data3 := (if ushrtMax < a.data1 then 2 else 0) * 256 + a.data3 % 256 } := by
  unfold Filter.extFits
  dsimp only
  rw [if_pos ⟨hext, (asValue_iff a).mp hvalue⟩]
  split_ifs <;> rfl

theorem extFits_other (h : ¬(a.type = Community.typeExt ∧ AsValue a)) :
    Filter.extFits a = some a := by
  unfold Filter.extFits
  dsimp only
  rw [if_neg (fun hand => h ⟨hand.1, (asValue_iff a).mpr hand.2⟩)]

/-- What is set when a community has to be expanded is the expansion with masks, or it is an
    extended community with an AS and gets a new type. -/
theorem setValue_cases (hslow : fc.flags / 256 ≠ 0) (h : setValue fc peer = some set) :
    (∃ mask, fc2c fc (some peer) true = some (set, mask)) ∨
      fc.type = Community.typeExt ∧ AsValue fc ∧ NoWildcard fc ∧
        ¬(ushrtMax < asNumber fc.data1 (fc.meaning 1) peer ∧
          ushrtMax < asNumber fc.data2 (fc.meaning 2) peer) ∧
        ∃ type, (type = 0 ∨ type = 2) ∧
          set = { asCommunity fc peer with data3 := type * 256 + fc.data3 % 256 } := by
  rw [setValue, if_neg hslow] at h
  obtain ⟨⟨test, mask⟩, hexpand, hfits⟩ := Option.bind_eq_some_iff.mp h
  dsimp only at hfits
  have htype : test.type = fc.type := by
    unfold Community.type
    rw [fc2c_flags hexpand]
    exact Nat.mod_mod _ _
  -- only an extended community with an AS number has its type chosen
  by_cases has : test.type = Community.typeExt ∧ AsValue test
  · right
    obtain ⟨hext, hvalue⟩ := has
    rw [htype] at hext
    obtain ⟨-, -, hexact, hdata3⟩ := fc2c_ext hext hexpand
    have hvalue' : AsValue fc := by
      have := extTypeBits_lt fc
      have hbits : extTypeBits test = extTypeBits fc := by
        conv_lhs => rw [extTypeBits, hdata3]
        omega
      rwa [AsValue, hbits] at hvalue
    -- the expansion is known then
    have htest := Option.some.inj
      ((fc2c_as hext hvalue' (hexact hvalue') false).symm.trans hexpand)
    obtain rfl : asCommunity fc peer = test := congrArg Prod.fst htest
    rw [extFits_as (htype.trans hext) hvalue] at hfits
    obtain ⟨hboth, hset⟩ := Option.ite_none_left_eq_some.mp hfits
    refine ⟨hext, hvalue', hexact hvalue', hboth,
      if ushrtMax < (asCommunity fc peer).data1 then 2 else 0, ?_,
      (Option.some.inj hset).symm.trans ?_⟩
    · exact (ite_eq_or_eq _ 2 0).symm
    · rw [hdata3, Nat.mul_comm (extTypeBits fc), Nat.mul_add_mod, Nat.mod_mod]
  · left
    rw [extFits_other has] at hfits
    cases hfits
    exact ⟨mask, fc2c_true hexpand⟩

/-- Of two communities that have the low byte of the type and the numbers in common. -/
theorem maskEq_as_iff {type : ℕ} (htype : type = 0 ∨ type = 2) :
    MaskEq { asCommunity fc peer with data3 := type * 256 + fc.data3 % 256 }
      (asCommunity fc peer) asMasks ↔ extTypeBits fc = 0 ∨ extTypeBits fc = 2 := by
  rw [← and_asMask_type htype (extTypeBits_lt fc) (Nat.mod_lt fc.data3 (by decide))]
  unfold MaskEq
  simp only [asMasks, asCommunity, Community.type, true_and]

/-- If the type is lost something is set, and the filter does not match on it. -/
theorem TypeLost.setValue (h : TypeLost fc peer) :
    ∃ set, CommunityArray.setValue fc peer = some set ∧
      ¬ MaskEq set (asCommunity fc peer) asMasks := by
  have hlow : (asCommunity fc peer).data3 % 256 = fc.data3 % 256 := by
    unfold asCommunity
    dsimp only
    omega
  rw [CommunityArray.setValue, if_neg h.expanded, fc2c_as h.ext h.value h.exact]
  dsimp only [Option.bind_some]
  have hfits : ¬(ushrtMax < (asCommunity fc peer).data1 ∧ ushrtMax < (asCommunity fc peer).data2) :=
    h.fits
  rw [extFits_as ((type_asCommunity fc peer).trans h.ext) (asValue_asCommunity h.value peer),
    if_neg hfits, hlow]
  refine ⟨_, rfl, ?_⟩
  rw [maskEq_as_iff (ite_eq_or_eq _ 2 0).symm]
  exact fun hor => hor.elim h.upper.1 h.upper.2

/-! ## Set, match and delete -/

/-- If a community is set it is matched afterwards, and no other one has gone. -/
def SetAgrees (comm : CommunityArray) (fc : Community) (peer : PeerAs) : Prop :=
  (comm.communitySet fc peer).2 = true →
    (comm.communitySet fc peer).1.communityMatch fc (some peer) = true ∧
      ∀ c ∈ comm.entries, c ∈ (comm.communitySet fc peer).1.entries

/-- After a deletion nothing is matched, and exactly what was asked for has gone. -/
def DeleteAgrees (comm : CommunityArray) (fc : Community) (peer : PeerAs) : Prop :=
  (comm.communityDelete fc peer).communityMatch fc (some peer) = false ∧
    ∀ c, c ∈ (comm.communityDelete fc peer).entries ↔
      c ∈ comm.entries ∧ ¬ Asked fc (some peer) c

theorem Wf.deleteAgrees (h : comm.Wf) (fc : FilterCommunity) (peer : PeerAs) :
    DeleteAgrees comm fc.community peer := by
  obtain ⟨-, -, -, hmem⟩ := delete_spec h fc peer
  refine ⟨?_, hmem⟩
  rw [Bool.eq_false_iff, Ne, (h.communityDelete fc peer).communityMatch_iff]
  rintro ⟨c, hc, hasked⟩
  exact ((hmem c).mp hc).2 hasked

/-- What is set is in the list afterwards. -/
theorem Wf.mem_insert (h : comm.Wf) (hset : Known set) : set ∈ (comm.insert set).entries := by
  rw [h.entries_insert]
  obtain ⟨c, hc, hzero⟩ := exists_mem_insertCommunity set comm.entries
  have hknown : Known c := by
    rw [← h.entries_insert] at hc
    exact (h.insert hset).known c hc
  rwa [hknown.eq_of_fastMatch hset hzero] at hc

/-- Setting agrees with matching unless the type is lost and no community is in the list that
    differs from the one asked for in the size of the AS at most. -/
theorem Wf.setAgrees_iff (h : comm.Wf) (fc : FilterCommunity) (peer : PeerAs) :
    SetAgrees comm fc.community peer ↔ (TypeLost fc.community peer →
      ∃ c ∈ comm.entries, MaskEq c (asCommunity fc.community peer) asMasks) := by
  unfold SetAgrees
  rw [communitySet_eq]
  cases hset : setValue fc.community peer with
  -- nothing is set, so no type can be lost
  | none =>
    refine ⟨fun _ hlost => ?_, fun _ hfalse => by simp at hfalse⟩
    obtain ⟨set, hsome, -⟩ := hlost.setValue
    simp [hset] at hsome
  | some set =>
    have hknown := known_setValue hset
    have hwf := h.insert hknown
    have hkept : ∀ c ∈ comm.entries, c ∈ (comm.insert set).entries := by
      intro c hc
      rw [h.entries_insert]
      exact mem_insertCommunity_of_mem hc
    have hmem := h.mem_insert hknown
    simp only [forall_const, hwf.communityMatch_iff]
    by_cases hexact : fc.community.flags / 256 = 0
    -- an exact value is set as it is
    · have hself : set = fc.community := by
        rw [setValue, if_pos hexact] at hset
        exact (Option.some.inj hset).symm
      have hasked : Asked fc.community (some peer) set := by
        rw [Asked, if_pos hexact]
        exact hself
      exact ⟨fun _ hlost => absurd hexact hlost.expanded, fun _ => ⟨⟨set, hmem, hasked⟩, hkept⟩⟩
    · rcases setValue_cases hexact hset with ⟨mask, hmask⟩ | ⟨hext, hvalue, hwild, hfits, hnew⟩
      · have hasked : Asked fc.community (some peer) set := by
          rw [Asked, if_neg hexact]
          exact ⟨set, mask, hmask, rfl, rfl, rfl, rfl⟩
        refine ⟨fun _ hlost => ?_, fun _ => ⟨⟨set, hmem, hasked⟩, hkept⟩⟩
        -- the expansion is what is set
        obtain ⟨set', hset', hne⟩ := hlost.setValue
        have hsame := (fc2c_as hlost.ext hlost.value hlost.exact true).symm.trans hmask
        have hfst : asCommunity fc.community peer = set :=
          congrArg Prod.fst (Option.some.inj hsame)
        rw [hset, ← hfst] at hset'
        cases hset'
        exact absurd ⟨rfl, rfl, rfl, rfl⟩ hne
      -- the AS number is set with type 0 or 2, whichever its size needs
      · obtain ⟨type, htype, rfl⟩ := hnew
        have hasked : ∀ c, Asked fc.community (some peer) c ↔
            MaskEq c (asCommunity fc.community peer) asMasks := by
          intro c
          rw [Asked, if_neg hexact, fc2c_as hext hvalue hwild]
          simp
        simp only [hasked]
        constructor
        · rintro ⟨⟨c, hc, heq⟩, -⟩ hlost
          rw [h.entries_insert] at hc
          -- the value that answers was there before, or the one that was set does
          rcases mem_of_mem_insertCommunity hc with hold | rfl
          · exact ⟨c, hold, heq⟩
          · exact absurd ((maskEq_as_iff htype).mp heq) (not_or.mpr hlost.upper)
        · intro hlost
          refine ⟨?_, hkept⟩
          by_cases hupper : extTypeBits fc.community = 0 ∨ extTypeBits fc.community = 2
          · exact ⟨_, hmem, (maskEq_as_iff htype).mpr hupper⟩
          · obtain ⟨c, hc, heq⟩ :=
              hlost ⟨hexact, hext, hvalue, hwild, hfits, not_or.mp hupper⟩
            exact ⟨c, hkept c hc, heq⟩

/-- For every list, community and peer: set, match and delete agree unless `community_set` writes a
    type in which bits of the type asked for are lost, and no such community is there already. -/
theorem set_match_delete_iff (ops : List CommunityOp) (fc : FilterCommunity) (peer : PeerAs) :
    SetAgrees (run ops) fc.community peer ∧ DeleteAgrees (run ops) fc.community peer ↔
      (TypeLost fc.community peer →
        ∃ c ∈ (run ops).entries, MaskEq c (asCommunity fc.community peer) asMasks) := by
  have h := run_wf ops
  rw [h.setAgrees_iff, and_iff_left (h.deleteAgrees fc peer)]

/-- `ext-community flow-rate 1:local-as` is set and not matched afterwards. -/
theorem flow_rate_set_not_matched :
    ∃ (fc : FilterCommunity) (peer : PeerAs), ¬ SetAgrees (run []) fc.community peer := by
  refine ⟨⟨⟨0x30010, 1, 0, 0x8006⟩, by decide⟩, ⟨64497, 64496⟩, ?_⟩
  intro h
  have hmatch := (h (by decide +kernel)).1
  revert hmatch
  decide +kernel

end CommunityArray

end Bgpd.Rde
