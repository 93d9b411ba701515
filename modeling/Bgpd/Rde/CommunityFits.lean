import Bgpd.Rde.CommunitySet
import Bgpd.Rde.UpdateMsg

/-!
# The Numbers of Communities

A community fits its attribute if its numbers have no more bits than there is room for. All that are
received fit, and so do those that filters set if the numbers of the filter and of the peer do:
`community_set` writes the type of an extended community that has room for the AS.

## Main results

- `beNat_beBytes`: a number that is written and read again
- `fits_setValue`: what is set fits
- `run_fits`: all communities of a list fit
-/

namespace Bgpd.Rde

open Msg (beBytes)
open Parse (beNat extCommunity)

/-! ## Numbers in bytes -/

@[simp] theorem length_beBytes (n value : ℕ) : (beBytes n value).length = n := by
  induction n generalizing value with
  | zero => rfl
  | succ n ih => simp [beBytes, ih]

theorem beNat_append_singleton (data : List UInt8) (b : UInt8) :
    beNat (data ++ [b]) = beNat data * 256 + b.toNat := by
  simp [beNat]

theorem beNat_beBytes (n value : ℕ) : beNat (beBytes n value) = value % 256 ^ n := by
  induction n generalizing value with
  | zero => simp [beBytes, beNat, Nat.mod_one]
  | succ n ih =>
    have hbyte : (UInt8.ofNat value).toNat = value % 256 := UInt8.toNat_ofNat'
    rw [beBytes, beNat_append_singleton, ih, hbyte, Nat.pow_succ', Nat.mod_mul]
    omega

theorem beNat_lt (data : List UInt8) : beNat data < 256 ^ data.length := by
  induction data using List.reverseRecOn with
  | nil => simp [beNat]
  | append_singleton data b ih =>
    rw [beNat_append_singleton, List.length_append, List.length_singleton, Nat.pow_succ]
    have := b.toNat_lt
    omega

namespace CommunityArray

open Communities

variable {a b c fc test mask set : Community} {xs : List Community} {comm : CommunityArray}
variable {peer : PeerAs} {buf : List UInt8}

/-! ## What fits -/

/-- Extended communities with a first number of four bytes. -/
def LongFirst (c : Community) : Prop := c.data3 / 256 % 64 = 1 ∨ c.data3 / 256 % 64 = 2

instance (c : Community) : Decidable (LongFirst c) :=
  inferInstanceAs (Decidable (c.data3 / 256 % 64 = 1 ∨ c.data3 / 256 % 64 = 2))

/-- The numbers have no more bits than their attribute has room for. -/
structure Fits (c : Community) : Prop where
  basic : c.flags = Community.typeBasic → c.data1 < 2 ^ 16 ∧ c.data2 < 2 ^ 16 ∧ c.data3 = 0
  ext : c.flags = Community.typeExt → c.data3 < 2 ^ 16 ∧
    (LongFirst c → c.data1 < 2 ^ 32 ∧ c.data2 < 2 ^ 16) ∧
    (¬ LongFirst c → c.data1 < 2 ^ 16 ∧ c.data2 < 2 ^ 32)
  large : c.flags = Community.typeLarge →
    c.data1 < 2 ^ 32 ∧ c.data2 < 2 ^ 32 ∧ c.data3 < 2 ^ 32

theorem fits_extCommunity {n : ℕ} (h : n < 2 ^ 64) : Fits (extCommunity n) where
  basic := fun hb => absurd hb (by simp [extCommunity, Community.typeExt, Community.typeBasic])
  large := fun hb => absurd hb (by simp [extCommunity, Community.typeExt, Community.typeLarge])
  ext := fun _ => by
    unfold extCommunity LongFirst Community.extTransFourAs Community.extTransIpv4
    dsimp only
    split_ifs <;> dsimp only <;> omega

/-- What `parse.y` makes of an extended community with a wildcard has no numbers, the numbers of
    all other ones fit. Opaque communities fit if their value has no more than 48 bits. -/
def Configured (fc : Community) : Prop :=
  fc.type = Community.typeExt ∧ (fc.meaning 1 = Community.any ∨ fc.meaning 3 = Community.any) ∨
    Fits { fc with flags := fc.type }

theorem applyFlag_lt {num flag value m n : ℕ} {mask : Bool} (hn : num < n)
    (hremote : peer.remoteAs < n) (hlocal : peer.localAs < n)
    (h : applyFlag num flag (some peer) mask = some (value, m)) : value < n := by
  unfold applyFlag at h
  split_ifs at h <;> simp only [Option.map_some, Option.some.injEq, Prod.mk.injEq] at h <;> omega

/-- A community with an AS gets the type for the size of the AS. -/
theorem fits_as (hfc : fc.data1 < 2 ^ 32 ∧ fc.data2 < 2 ^ 32) (hremote : peer.remoteAs < 2 ^ 32)
    (hlocal : peer.localAs < 2 ^ 32) (hext : fc.type = Community.typeExt) :
    ∀ set, (if ushrtMax < (asCommunity fc peer).data1 ∧ ushrtMax < (asCommunity fc peer).data2 then
        none
      else some { asCommunity fc peer with
        data3 := (if ushrtMax < (asCommunity fc peer).data1 then 2 else 0) * 256 +
          (asCommunity fc peer).data3 % 256 }) = some set → Fits set := by
  have hnumber : ∀ num flag, num < 2 ^ 32 → asNumber num flag peer < 2 ^ 32 := by
    intro num flag hnum
    unfold asNumber
    split_ifs <;> assumption
  have h1 : (asCommunity fc peer).data1 < 2 ^ 32 := hnumber _ _ hfc.1
  have h2 : (asCommunity fc peer).data2 < 2 ^ 32 := hnumber _ _ hfc.2
  have hflags : (asCommunity fc peer).flags = Community.typeExt := hext
  intro set hset
  obtain ⟨hboth, hset⟩ := Option.ite_none_left_eq_some.mp hset
  cases hset
  unfold ushrtMax at *
  refine ⟨fun hb => ?_, fun _ => ?_, fun hb => ?_⟩
  · exact absurd (hflags.symm.trans hb) (by decide)
  · unfold LongFirst
    dsimp only
    split_ifs <;> omega
  · exact absurd (hflags.symm.trans hb) (by decide)

/-- The numbers of an extended community without an AS. -/
theorem fc2c_other (hext : fc.type = Community.typeExt) (hvalue : ¬ AsValue fc)
    (hfc : fc.data1 < 2 ^ 32) (hremote : peer.remoteAs < 2 ^ 32) (hlocal : peer.localAs < 2 ^ 32)
    (h : fc2c fc (some peer) false = some (test, mask)) :
    extTypeBits fc % 64 = 1 ∧ test.data1 < 2 ^ 32 ∧ test.data2 < 2 ^ 16 ∨
      extTypeBits fc % 64 ≠ 1 ∧ test.data1 = fc.data1 ∧ test.data2 = fc.data2 := by
  have hemod := extType_emod fc
  rw [asValue_iff] at hvalue
  unfold fc2c at h
  simp only [hext, Community.typeExt, Community.typeBasic, Community.typeLarge,
    Nat.reduceEqDiff, ↓reduceIte, hvalue] at h
  split_ifs at h with hany hmask hrt hfirst hfirst hmask hip
  · exact hmask.elim
  · simp at hfirst
  · exact hmask.elim
  · left
    simp only [Option.bind_eq_bind, Option.bind_eq_some_iff, Prod.exists,
      Option.ite_none_left_eq_some] at h
    obtain ⟨data1, mask1, h1, data2, mask2, h2, hfits, hr⟩ := h
    cases hr
    refine ⟨?_, applyFlag_lt hfc hremote hlocal h1, ?_⟩
    · rw [hemod] at hip
      exact Int.ofNat_inj.mp hip
    · unfold ushrtMax at hfits
      dsimp only
      omega
  · right
    cases h
    refine ⟨fun heq => hip ?_, rfl, rfl⟩
    rw [hemod, heq]
    rfl

/-- The numbers of the other communities. -/
theorem fc2c_not_ext (hext : fc.type ≠ Community.typeExt) (hremote : peer.remoteAs < 2 ^ 32)
    (hlocal : peer.localAs < 2 ^ 32)
    (hfc : Fits { fc with flags := fc.type })
    (h : fc2c fc (some peer) false = some (test, mask)) :
    fc.type = Community.typeBasic ∧ test.data1 < 2 ^ 16 ∧ test.data2 < 2 ^ 16 ∧ test.data3 = 0 ∨
      fc.type = Community.typeLarge ∧ test.data1 < 2 ^ 32 ∧ test.data2 < 2 ^ 32 ∧
        test.data3 < 2 ^ 32 := by
  unfold fc2c at h
  dsimp only at h
  rw [if_neg hext] at h
  split_ifs at h with hbasic hlarge
  · left
    simp only [Option.bind_eq_bind, Option.bind_eq_some_iff, Prod.exists,
      Option.ite_none_left_eq_some] at h
    obtain ⟨data1, mask1, h1, data2, mask2, h2, hfits, hr⟩ := h
    cases hr
    unfold ushrtMax at hfits
    dsimp only
    omega
  · right
    simp only [Option.bind_eq_bind, Option.bind_eq_some_iff, Prod.exists] at h
    obtain ⟨data1, mask1, h1, data2, mask2, h2, data3, mask3, h3, hr⟩ := h
    cases hr
    have hfc := hfc.large hlarge
    exact ⟨hlarge, applyFlag_lt hfc.1 hremote hlocal h1, applyFlag_lt hfc.2.1 hremote hlocal h2,
      applyFlag_lt hfc.2.2 hremote hlocal h3⟩

/-- What is set fits if the numbers of the filter and of the peer do. -/
theorem fits_fc2c (hfc : Configured fc) (hremote : peer.remoteAs < 2 ^ 32)
    (hlocal : peer.localAs < 2 ^ 32) (h : fc2c fc (some peer) false = some (test, mask))
    (hfits : Filter.extFits test = some set) : Fits set := by
  by_cases hext : fc.type = Community.typeExt
  · obtain ⟨hfirst, hany, hexact, hdata3⟩ := fc2c_ext hext h
    -- only a wildcard goes without numbers, and this is none
    have hnumbers : Fits { fc with flags := fc.type } := by
      rcases hfc with ⟨-, hwild⟩ | hfc
      · exact absurd hwild (not_or.mpr ⟨hfirst, hany⟩)
      · exact hfc
    obtain ⟨htype, hlong, hshort⟩ := hnumbers.ext hext
    by_cases hvalue : AsValue fc
    · -- the expansion is known then
      have htest := Option.some.inj ((fc2c_as hext hvalue (hexact hvalue) false).symm.trans h)
      obtain rfl : asCommunity fc peer = test := congrArg Prod.fst htest
      rw [extFits_as ((type_asCommunity fc peer).trans hext) (asValue_asCommunity hvalue peer)]
        at hfits
      apply fits_as ?_ hremote hlocal hext set hfits
      by_cases hfour : LongFirst { fc with flags := fc.type }
      · exact ⟨(hlong hfour).1, Nat.lt_trans (hlong hfour).2 (by decide)⟩
      · exact ⟨Nat.lt_trans (hshort hfour).1 (by decide), (hshort hfour).2⟩
    -- no AS number in it: the test is compared as it stands
    · have htest : ¬(test.type = Community.typeExt ∧ AsValue test) := by
        rintro ⟨-, htest⟩
        unfold AsValue extTypeBits at *
        rw [hdata3] at htest
        omega
      rw [extFits_other htest] at hfits
      cases hfits
      have hkept : test.data3 = fc.data3 := by
        rw [hdata3]
        unfold extTypeBits
        dsimp only at htype
        omega
      have hflags := (fc2c_flags h).trans hext
      refine ⟨fun hb => ?_, fun _ => ?_, fun hb => ?_⟩
      · exact absurd (hflags.symm.trans hb) (by decide)
      · unfold LongFirst
        rw [hkept]
        have hdata1 : fc.data1 < 2 ^ 32 := by
          by_cases hfour : LongFirst { fc with flags := fc.type }
          · exact (hlong hfour).1
          · exact Nat.lt_trans (hshort hfour).1 (by decide)
        unfold LongFirst at hlong hshort
        unfold AsValue at hvalue
        have hnum := fc2c_other hext hvalue hdata1 hremote hlocal h
        unfold extTypeBits at hvalue hnum
        dsimp only at htype hlong hshort
        omega
      · exact absurd (hflags.symm.trans hb) (by decide)
  -- a basic or a large community
  · have hnumbers : Fits { fc with flags := fc.type } := by
      rcases hfc with ⟨hwild, -⟩ | hfc
      · exact absurd hwild hext
      · exact hfc
    have htype : test.type = fc.type := by
      unfold Community.type
      rw [fc2c_flags h]
      exact Nat.mod_mod _ _
    rw [extFits_other (fun hand => hext (htype.symm.trans hand.1))] at hfits
    cases hfits
    have hflags := fc2c_flags h
    rcases fc2c_not_ext hext hremote hlocal hnumbers h with ⟨hbasic, hnum⟩ | ⟨hlarge, hnum⟩
    · rw [hbasic] at hflags
      exact ⟨fun _ => hnum, fun hb => absurd (hflags.symm.trans hb) (by decide),
        fun hb => absurd (hflags.symm.trans hb) (by decide)⟩
    · rw [hlarge] at hflags
      exact ⟨fun hb => absurd (hflags.symm.trans hb) (by decide),
        fun hb => absurd (hflags.symm.trans hb) (by decide), fun _ => hnum⟩

/-! ## Runs -/

/-- The numbers of an operation fit: those of a filter as it can be written in the configuration,
    and AS numbers. -/
def CommunityOp.Ok : CommunityOp → Prop
  | .set fc peer => Configured fc.community ∧ peer.remoteAs < 2 ^ 32 ∧ peer.localAs < 2 ^ 32
  | _ => True

theorem fits_setValue {fc : FilterCommunity} (hop : (CommunityOp.set fc peer).Ok)
    (h : setValue fc.community peer = some set) : Fits set := by
  obtain ⟨hfc, hremote, hlocal⟩ := hop
  unfold setValue at h
  split_ifs at h with hexact
  · cases h
    have hflags : fc.community.type = fc.community.flags := by
      unfold Community.type
      omega
    have hmeaning : ∀ i, fc.community.meaning (i + 1) ≠ Community.any := by
      intro i
      unfold Community.meaning
      rw [Nat.pow_succ', ← Nat.div_div_eq_div_mul, hexact, Nat.zero_div]
      decide
    rcases hfc with ⟨-, hwild⟩ | hfits
    · exact absurd hwild (not_or.mpr ⟨hmeaning 0, hmeaning 2⟩)
    · rwa [hflags] at hfits
  · obtain ⟨⟨test, mask⟩, hexpand, hfits⟩ := Option.bind_eq_some_iff.mp h
    exact fits_fc2c hfc hremote hlocal hexpand hfits

theorem forall_mem_addBasic {p : Community → Prop} (hp : ∀ a b x y : UInt8,
      p ⟨Community.typeBasic, beNat [a, b], beNat [x, y], 0⟩) (buf : List UInt8)
    (h : ∀ c ∈ xs, p c) : ∀ c ∈ Parse.addBasic buf xs, p c := by
  induction buf, xs using Parse.addBasic.induct with
  | case1 a b x y buf xs ih =>
    apply ih
    intro c hc
    rcases mem_of_mem_insertCommunity hc with hmem | rfl
    · exact h c hmem
    · exact hp a b x y
  | case2 buf xs hshort =>
    rw [Parse.addBasic]
    · exact h
    · exact hshort

theorem forall_mem_addLarge {p : Community → Prop} (hp : ∀ data1 data2 data3 : List UInt8,
      data1.length ≤ 4 → data2.length ≤ 4 → data3.length ≤ 4 →
        p ⟨Community.typeLarge, beNat data1, beNat data2, beNat data3⟩) (n : ℕ) (buf : List UInt8)
    (h : ∀ c ∈ xs, p c) : ∀ c ∈ Parse.addLarge n buf xs, p c := by
  induction n generalizing buf xs with
  | zero => exact h
  | succ n ih =>
    apply ih
    intro c hc
    rcases mem_of_mem_insertCommunity hc with hmem | rfl
    · exact h c hmem
    · exact hp _ _ _ (List.length_take_le 4 _) (List.length_take_le 4 _) (List.length_take_le 4 _)

theorem forall_mem_addExt {p : Community → Prop} (hp : ∀ data : List UInt8, data.length ≤ 8 →
      p (extCommunity (beNat data))) (ebgp : Bool) (n : ℕ) (buf : List UInt8)
    (h : ∀ c ∈ xs, p c) : ∀ c ∈ Parse.addExt ebgp n buf xs, p c := by
  induction n generalizing buf xs with
  | zero => exact h
  | succ n ih =>
    apply ih
    split_ifs
    · exact h
    · intro c hc
      rcases mem_of_mem_insertCommunity hc with hmem | rfl
      · exact h c hmem
      · exact hp _ (List.length_take_le 8 _)

theorem beNat_lt_of_length {data : List UInt8} {n : ℕ} (h : data.length ≤ n) :
    beNat data < 256 ^ n :=
  Nat.lt_of_lt_of_le (beNat_lt data) (Nat.pow_le_pow_right (by decide) h)

/-- What is received fits. -/
theorem fits_basic (a b x y : UInt8) :
    Fits ⟨Community.typeBasic, beNat [a, b], beNat [x, y], 0⟩ where
  basic := fun _ => by
    have hpow : 256 ^ 2 = 2 ^ 16 := by norm_num
    have h1 := @beNat_lt_of_length [a, b] 2 (Nat.le_refl 2)
    have h2 := @beNat_lt_of_length [x, y] 2 (Nat.le_refl 2)
    rw [hpow] at h1 h2
    exact ⟨h1, h2, rfl⟩
  ext := fun hb => by simp [Community.typeBasic, Community.typeExt] at hb
  large := fun hb => by simp [Community.typeBasic, Community.typeLarge] at hb

theorem fits_large {data1 data2 data3 : List UInt8} (h1 : data1.length ≤ 4)
    (h2 : data2.length ≤ 4) (h3 : data3.length ≤ 4) :
    Fits ⟨Community.typeLarge, beNat data1, beNat data2, beNat data3⟩ where
  basic := fun hb => by simp [Community.typeBasic, Community.typeLarge] at hb
  ext := fun hb => by simp [Community.typeExt, Community.typeLarge] at hb
  large := fun _ => by
    have hpow : 256 ^ 4 = 2 ^ 32 := by norm_num
    have h1 := beNat_lt_of_length h1
    have h2 := beNat_lt_of_length h2
    have h3 := beNat_lt_of_length h3
    rw [hpow] at h1 h2 h3
    exact ⟨h1, h2, h3⟩

theorem fits_ext {data : List UInt8} (h : data.length ≤ 8) : Fits (extCommunity (beNat data)) := by
  have hpow : 256 ^ 8 = 2 ^ 64 := by norm_num
  have h := beNat_lt_of_length h
  rw [hpow] at h
  exact fits_extCommunity h

/-- Every operation keeps the entries in a form that can be written. -/
theorem fits_apply (h : comm.Wf) (hfits : ∀ c ∈ comm.entries, Fits c) {op : CommunityOp}
    (hop : op.Ok) : ∀ c ∈ (comm.apply op).entries, Fits c := by
  cases op with
  -- what is parsed from a message has the size of its fields
  | add flags buf =>
    unfold CommunityArray.apply
    dsimp only
    cases hadd : comm.communityAdd flags buf with
    | none => exact hfits
    | some after =>
      have hlist := (h.communityAdd hadd).2
      unfold Parse.communityAdd at hlist
      obtain ⟨-, hlist⟩ := Option.ite_none_left_eq_some.mp hlist
      rw [Option.getD_some, ← Option.some.inj hlist]
      exact forall_mem_addBasic fits_basic buf hfits
  | largeAdd flags buf =>
    unfold CommunityArray.apply
    dsimp only
    cases hadd : comm.communityLargeAdd flags buf with
    | none => exact hfits
    | some after =>
      have hlist := (h.communityLargeAdd hadd).2
      unfold Parse.communityLargeAdd at hlist
      obtain ⟨-, hlist⟩ := Option.ite_none_left_eq_some.mp hlist
      rw [Option.getD_some, ← Option.some.inj hlist]
      exact forall_mem_addLarge (fun _ _ _ => fits_large) _ buf hfits
  | extAdd flags ebgp buf =>
    unfold CommunityArray.apply
    dsimp only
    cases hadd : comm.communityExtAdd flags ebgp buf with
    | none => exact hfits
    | some after =>
      have hlist := (h.communityExtAdd hadd).2
      unfold Parse.communityExtAdd at hlist
      obtain ⟨-, hlist⟩ := Option.ite_none_left_eq_some.mp hlist
      rw [Option.getD_some, ← Option.some.inj hlist]
      exact forall_mem_addExt (fun _ => fits_ext) ebgp _ buf hfits
  -- a `.set` adds one value, which fits because its parts do
  | set fc peer =>
    unfold CommunityArray.apply
    dsimp only
    rw [communitySet_eq]
    cases hset : setValue fc.community peer with
    | none => exact hfits
    | some set =>
      intro c hc
      rw [h.entries_insert] at hc
      rcases mem_of_mem_insertCommunity hc with hmem | rfl
      · exact hfits c hmem
      · exact fits_setValue hop hset
  -- removing and copying leave values that were there
  | delete fc peer =>
    intro c hc
    exact hfits c (((delete_spec h fc peer).2.2.2 c).mp hc).1
  | copy =>
    intro c hc
    exact hfits c (entries_copy comm ▸ hc)

/-- All communities of a list fit. -/
theorem run_fits (ops : List CommunityOp) (hops : ∀ op ∈ ops, op.Ok) :
    ∀ c ∈ (run ops).entries, Fits c := by
  have hfold : ∀ (ops : List CommunityOp) (comm : CommunityArray), comm.Wf →
      (∀ c ∈ comm.entries, Fits c) → (∀ op ∈ ops, op.Ok) →
        ∀ c ∈ (ops.foldl CommunityArray.apply comm).entries, Fits c := by
    intro ops
    induction ops with
    | nil => exact fun comm _ hfits _ => hfits
    | cons op rest ih =>
      intro comm h hfits hops
      obtain ⟨hop, hrest⟩ := List.forall_mem_cons.mp hops
      exact ih (comm.apply op) (h.apply op) (fits_apply h hfits hop) hrest
  exact hfold ops {} wf_empty (by simp [entries]) hops

end CommunityArray

end Bgpd.Rde
