import Bgpd.Lib.PrefixOrder
import Bgpd.Rde.Flowspec
import Bgpd.Rde.NlriSpec

/-!
# The Order of Flow Specifications

`flowspec_cmp` compares the components of two NLRI one after the other: prefixes by the bits that
both have and the longer one first, other components as strings. This is an order, and NLRI that
compare equal differ at most in bits behind the length of a prefix.

## Main results

- `compCmp_trans`, `compCmp_eq_iff`: the order of components
- `flowspecCmp_eq`: the code compares lists of components
-/

namespace Bgpd.Rde.Nlri

open Std Bgpd.Lib

variable {isV6 : Bool} {buf a b c d : List UInt8} {l n m type : ℕ}

/-! ## Components -/

/-- Where the pattern of a prefix component begins. -/
def patternSkip (isV6 : Bool) : ℕ := if isV6 then 3 else 2

/-- The size of its array. -/
def patternMax (isV6 : Bool) : ℕ := if isV6 then 16 else 4

/-- The offset of a prefix component; IPv4 has none. -/
def patternOff (isV6 : Bool) (comp : List UInt8) : ℕ := if isV6 then byteAt comp 2 else 0

def patternLen (isV6 : Bool) (comp : List UInt8) : ℕ := byteAt comp 1 - patternOff isV6 comp

/-- The pattern of a prefix component and its length. -/
def pattern (isV6 : Bool) (comp : List UInt8) : Bytes (patternMax isV6) × ℕ :=
  (padTo (patternMax isV6) (comp.drop (patternSkip isV6)), patternLen isV6 comp)

/-- What `flowspec_next_component` has checked. -/
structure CompOk (isV6 : Bool) (comp : List UInt8) : Prop where
  ne_nil : comp ≠ []
  prefix_ : isPrefixType (byteAt comp 0) = true →
    comp.length = patternSkip isV6 + prefixBytes (patternLen isV6 comp) ∧
      patternLen isV6 comp ≤ patternMax isV6 * 8 ∧ patternOff isV6 comp ≤ byteAt comp 1

theorem opLoop_bounds (h : opLoop buf n m = some l) : m < l ∧ l ≤ buf.length := by
  induction n generalizing m with
  | zero => exact absurd h (by simp [opLoop])
  | succ n ih =>
    rw [opLoop] at h
    cases hop : buf[m]? with
    | none => exact absurd h (by simp [hop])
    | some op =>
      simp only [hop] at h
      split_ifs at h with hand hlen heol
      · obtain ⟨hlt, hle⟩ := ih h
        exact ⟨by omega, hle⟩
      · cases h
        exact ⟨by omega, by omega⟩

theorem byteAt_take (h : n < l) : byteAt (buf.take l) n = byteAt buf n := by
  unfold byteAt
  rw [List.getD_eq_getElem?_getD, List.getElem?_take_of_lt h, ← List.getD_eq_getElem?_getD]

/-- One component: it is not empty, and it ends in the buffer. -/
theorem flowspecNextComponent_spec (h : flowspecNextComponent buf isV6 = some (l, type)) :
    1 ≤ l ∧ l ≤ buf.length ∧ type = byteAt buf 0 ∧ CompOk isV6 (buf.take l) := by
  cases buf with
  | nil => exact absurd h (by simp [flowspecNextComponent])
  | cons t rest =>
    simp only [flowspecNextComponent] at h
    by_cases hrange : t.toNat < 1 ∨ 14 ≤ t.toNat
    · rw [if_pos hrange] at h
      cases h
    rw [if_neg hrange] at h
    by_cases hpre : isPrefixType t.toNat = true
    -- a prefix component carries its length, and in IPv6 an offset
    · rw [if_pos hpre] at h
      cases isV6 with
      | false =>
        cases rest with
        | nil => exact absurd h (by simp)
        | cons plen rest =>
          simp only [Bool.not_false, if_true] at h
          split_ifs at h with hlen
          cases h
          push Not at hlen
          refine ⟨by omega, hlen.2, rfl, ?_, fun _ => ?_⟩
          · simp [Nat.add_comm 1]
          · have hone : byteAt ((t :: plen :: rest).take (1 + (prefixBytes plen.toNat + 1))) 1 =
                plen.toNat := by
              rw [byteAt_take (by omega)]
              rfl
            simp only [patternLen, patternOff, patternSkip, patternMax, hone, Bool.false_eq_true,
              if_false, List.length_take, Nat.min_eq_left hlen.2, Nat.sub_zero]
            omega
      | true =>
        rcases rest with - | ⟨plen, - | ⟨off, rest⟩⟩
        · exact absurd h (by simp)
        · exact absurd h (by simp)
        · simp only [Bool.not_true, Bool.false_eq_true, if_false] at h
          split_ifs at h with hplen hlen
          cases h
          push Not at hplen hlen
          have hone : byteAt ((t :: plen :: off :: rest).take
              (1 + (prefixBytes (plen.toNat - off.toNat) + 1 + 1))) 1 = plen.toNat := by
            rw [byteAt_take (by omega)]
            rfl
          have htwo : byteAt ((t :: plen :: off :: rest).take
              (1 + (prefixBytes (plen.toNat - off.toNat) + 1 + 1))) 2 = off.toNat := by
            rw [byteAt_take (by omega)]
            rfl
          refine ⟨by omega, hlen, rfl, ?_, fun _ => ?_⟩
          · simp [Nat.add_comm 1]
          · simp only [patternLen, patternOff, patternSkip, patternMax, hone, htwo, if_true,
              List.length_take, Nat.min_eq_left hlen]
            omega
    -- any other component is a list of operators that ends
    · rw [if_neg hpre] at h
      split_ifs at h with hflow
      simp only [Option.map_eq_some_iff, Prod.mk.injEq] at h
      obtain ⟨vlen, hops, rfl, rfl⟩ := h
      obtain ⟨hlt, hle⟩ := opLoop_bounds hops
      refine ⟨by omega, hle, rfl, ?_, fun h => ?_⟩
      · intro hnil
        have := congrArg List.length hnil
        simp only [List.length_take, List.length_nil] at this
        simp only [List.length_cons] at this
        omega
      · rw [byteAt_take (by omega)] at h
        exact absurd h hpre

/-- The components of a valid NLRI, with fuel for the longest one. -/
def flowComponents (isV6 : Bool) : ℕ → List UInt8 → List (List UInt8)
  | 0, _ => []
  | n + 1, buf =>
    match flowspecNextComponent buf isV6 with
    | none => []
    | some (l, _) => buf.take l :: flowComponents isV6 n (buf.drop l)

@[simp] theorem flowComponents_nil : flowComponents isV6 n [] = [] := by
  cases n <;> rfl

theorem compOk_of_mem (h : c ∈ flowComponents isV6 n buf) : CompOk isV6 c := by
  induction n generalizing buf with
  | zero => exact absurd h (by simp [flowComponents])
  | succ n ih =>
    rw [flowComponents] at h
    cases hnext : flowspecNextComponent buf isV6 with
    | none => exact absurd h (by simp [hnext])
    | some x =>
      obtain ⟨l, type⟩ := x
      simp only [hnext, List.mem_cons] at h
      rcases h with rfl | h
      · exact (flowspecNextComponent_spec hnext).2.2.2
      · exact ih h

/-- A valid NLRI that is not empty has a first component, and the rest is valid. -/
theorem validLoop_cons (h : validLoop isV6 n m buf = true) (hne : buf ≠ []) :
    ∃ k l type, n = k + 1 ∧ flowspecNextComponent buf isV6 = some (l, type) ∧
      validLoop isV6 k type (buf.drop l) = true := by
  cases n with
  | zero => exact absurd h (by simpa [validLoop] using hne)
  | succ n =>
    rw [validLoop, if_neg (by simpa using hne)] at h
    cases hnext : flowspecNextComponent buf isV6 with
    | none => exact absurd h (by simp [hnext])
    | some x =>
      obtain ⟨l, type⟩ := x
      simp only [hnext] at h
      split_ifs at h with htype
      exact ⟨n, l, type, rfl, rfl, h⟩

/-! ## The order of components -/

/-- The bits that both patterns have. -/
def maskCmp {max : ℕ} (k : ℕ) (a b : Bytes max) : Ordering :=
  compare (maskBytes k a.1) (maskBytes k b.1)

theorem maskCmp_trans {max : ℕ} (k : ℕ) : TransCmp fun a b : Bytes max => maskCmp k a b :=
  transCmp_comap (fun a : Bytes max => maskBytes k a.1) inferInstance

/-- A byte with its last bits cleared. -/
theorem toNat_and_addrmask (x : UInt8) {k : ℕ} (hk : k ≤ 8) :
    (x &&& addrmask k).toNat = x.toNat / 2 ^ (8 - k) * 2 ^ (8 - k) := by
  have hall : ∀ x : Fin 256, ∀ k : Fin 9,
      x.val &&& (addrmask k.val).toNat = x.val / 2 ^ (8 - k.val) * 2 ^ (8 - k.val) := by
    decide +kernel
  rw [UInt8.toNat_and]
  exact hall ⟨x.toNat, x.toNat_lt⟩ ⟨k, by omega⟩

/-- More bits do not change which of two bytes is smaller. -/
theorem and_addrmask_lt {x y : UInt8} {k m : ℕ} (hkm : k ≤ m) (hm : m ≤ 8)
    (h : (x &&& addrmask k).toNat < (y &&& addrmask k).toNat) :
    (x &&& addrmask m).toNat < (y &&& addrmask m).toNat := by
  rw [toNat_and_addrmask x (hkm.trans hm), toNat_and_addrmask y (hkm.trans hm)] at h
  rw [toNat_and_addrmask x hm, toNat_and_addrmask y hm]
  have hlt := Nat.lt_of_mul_lt_mul_right h
  apply Nat.mul_lt_mul_of_pos_right _ (Nat.two_pow_pos _)
  by_contra hle
  have hdiv := Nat.div_le_div_right (c := 2 ^ (m - k)) (Nat.not_lt.1 hle)
  have hpow : 2 ^ (8 - m) * 2 ^ (m - k) = 2 ^ (8 - k) := by
    rw [← pow_add]
    congr 1
    omega
  rw [Nat.div_div_eq_div_mul, Nat.div_div_eq_div_mul, hpow] at hdiv
  omega

theorem compare_byte_lt {x y : UInt8} : compare x y = .lt ↔ x.toNat < y.toNat := by
  rw [← UInt8.lt_iff_toNat_lt]
  exact compareOfLessAndEq_eq_lt

theorem addrmask_eight (x : UInt8) : x &&& addrmask 8 = x := by
  have hmask : addrmask 8 = -1 := rfl
  rw [hmask, UInt8.and_neg_one]

/-- What decides under a short mask decides the same way under a longer one. -/
theorem maskCmp_mono_aux {a b : List UInt8} {k m : ℕ} (hlen : a.length = b.length) (hkm : k ≤ m)
    (h : compare (maskBytes k a) (maskBytes k b) = .lt) :
    compare (maskBytes m a) (maskBytes m b) = .lt := by
  induction a generalizing b k m with
  | nil =>
    cases b with
    | nil => exact absurd h (by simp [maskBytes])
    | cons y b => exact absurd hlen (by simp)
  | cons x a ih =>
    cases b with
    | nil => exact absurd hlen (by simp)
    | cons y b =>
      have hlen' : a.length = b.length := by simpa using hlen
      by_cases hk : 8 ≤ k
      · -- the first byte counts as a whole both times
        have hm : 8 ≤ m := hk.trans hkm
        simp only [maskBytes, if_pos hk, if_pos hm, List.compare_cons_cons,
          Ordering.then_eq_lt] at h ⊢
        rcases h with hlt | ⟨heq, htail⟩
        · exact .inl hlt
        · exact .inr ⟨heq, ih hlen' (by omega) htail⟩
      · -- the difference is in the first byte, as nothing is left of the others
        simp only [maskBytes, if_neg hk, maskBytes_zero, hlen', List.compare_cons_cons,
          Ordering.then_eq_lt] at h
        rcases h with hlt | ⟨-, htail⟩
        · have hlt' : (x &&& addrmask k).toNat < (y &&& addrmask k).toNat :=
            compare_byte_lt.1 hlt
          by_cases hm : 8 ≤ m
          · simp only [maskBytes, if_pos hm, List.compare_cons_cons, Ordering.then_eq_lt]
            have hbyte := and_addrmask_lt (show k ≤ 8 by omega) le_rfl hlt'
            rw [addrmask_eight, addrmask_eight] at hbyte
            exact .inl (compare_byte_lt.2 hbyte)
          · simp only [maskBytes, if_neg hm, List.compare_cons_cons, Ordering.then_eq_lt]
            have hbyte := and_addrmask_lt hkm (show m ≤ 8 by omega) hlt'
            exact .inl (compare_byte_lt.2 hbyte)
        · exact absurd htail (by simp)

theorem maskCmp_mono {max k m : ℕ} {a b : Bytes max} (hkm : k ≤ m) (h : maskCmp k a b = .lt) :
    maskCmp m a b = .lt :=
  maskCmp_mono_aux (a.2.trans b.2.symm) hkm h

/-- The order of components. -/
def compCmp (isV6 : Bool) : List UInt8 → List UInt8 → Ordering :=
  thenOn (byteAt · 0) fun type =>
    if isPrefixType type then
      thenOn (patternOff isV6) fun _ a b => gradedCmp maskCmp (pattern isV6 a) (pattern isV6 b)
    else lexEnd compare

theorem compCmp_trans : TransCmp (compCmp isV6) := by
  apply thenOn_trans
  intro type
  split_ifs
  · apply thenOn_trans
    intro _
    exact transCmp_comap (pattern isV6) (gradedCmp_trans maskCmp_trans maskCmp_mono)
  · exact lexEnd_trans

/-- A component with the bits behind the length of its prefix cleared. -/
def canonComp (isV6 : Bool) (comp : List UInt8) : List UInt8 :=
  if isPrefixType (byteAt comp 0) then
    comp.take (patternSkip isV6) ++
      maskBytes (patternLen isV6 comp) (comp.drop (patternSkip isV6))
  else comp

theorem byteAt_append (a b : List UInt8) (h : n < a.length) : byteAt (a ++ b) n = byteAt a n := by
  simp [byteAt, List.getElem?_append_left h]

/-- The header of a prefix component: its type, length and offset. -/
theorem take_patternSkip_eq_iff (hc : patternSkip isV6 ≤ c.length)
    (hd : patternSkip isV6 ≤ d.length)
    (hoffc : patternOff isV6 c ≤ byteAt c 1) (hoffd : patternOff isV6 d ≤ byteAt d 1) :
    c.take (patternSkip isV6) = d.take (patternSkip isV6) ↔
      byteAt c 0 = byteAt d 0 ∧ patternOff isV6 c = patternOff isV6 d ∧
        patternLen isV6 c = patternLen isV6 d := by
  cases isV6 with
  | false =>
    simp only [patternSkip, patternOff, patternLen, Bool.false_eq_true, if_false] at *
    rcases c with - | ⟨t, - | ⟨p, c⟩⟩
    · simp at hc
    · simp at hc
    rcases d with - | ⟨t', - | ⟨p', d⟩⟩
    · simp at hd
    · simp at hd
    simp [byteAt, UInt8.toNat_inj]
  | true =>
    simp only [patternSkip, patternOff, patternLen, if_true] at *
    rcases c with - | ⟨t, - | ⟨p, - | ⟨o, c⟩⟩⟩
    · simp at hc
    · simp at hc
    · simp at hc
    rcases d with - | ⟨t', - | ⟨p', - | ⟨o', d⟩⟩⟩
    · simp at hd
    · simp at hd
    · simp at hd
    simp only [byteAt, List.getD_cons_succ, List.getD_cons_zero] at hoffc hoffd ⊢
    simp only [List.take_succ_cons, List.take_zero, List.cons.injEq, and_true, ← UInt8.toNat_inj]
    omega

/-- The masked array is the masked pattern and zeros. -/
theorem maskBytes_pattern (hok : CompOk isV6 c) (hpre : isPrefixType (byteAt c 0) = true) :
    maskBytes (patternLen isV6 c) (pattern isV6 c).1.1 =
      maskBytes (patternLen isV6 c) (c.drop (patternSkip isV6)) ++
        List.replicate (patternMax isV6 - prefixBytes (patternLen isV6 c)) 0 := by
  obtain ⟨hlen, hle, -⟩ := hok.prefix_ hpre
  have hdrop : (c.drop (patternSkip isV6)).length = prefixBytes (patternLen isV6 c) := by
    rw [List.length_drop, hlen]
    omega
  have hmax : (c.drop (patternSkip isV6)).length ≤ patternMax isV6 := by
    rw [hdrop]
    unfold prefixBytes
    omega
  rw [pattern, padTo_val hmax, maskBytes_append _ hdrop.ge, List.length_replicate, hdrop]

theorem byteAt_canonComp (hok : CompOk isV6 c) : byteAt (canonComp isV6 c) 0 = byteAt c 0 := by
  unfold canonComp
  split_ifs with hpre
  · have hlen := (hok.prefix_ hpre).1
    have hskip : 0 < patternSkip isV6 := by cases isV6 <;> simp [patternSkip]
    have hhead : 0 < (c.take (patternSkip isV6)).length := by
      rw [List.length_take]
      omega
    rw [byteAt_append _ _ hhead, byteAt_take hskip]
  · rfl

/-- Prefix components of one type: offset, length and the bits of the pattern. -/
theorem canonComp_eq_iff_of_prefix (hc : CompOk isV6 c) (hd : CompOk isV6 d)
    (hpre : isPrefixType (byteAt c 0) = true) (htype : byteAt c 0 = byteAt d 0) :
    canonComp isV6 c = canonComp isV6 d ↔
      patternOff isV6 c = patternOff isV6 d ∧ patternLen isV6 c = patternLen isV6 d ∧
        maskBytes (patternLen isV6 c) (pattern isV6 c).1.1 =
          maskBytes (patternLen isV6 c) (pattern isV6 d).1.1 := by
  have hpred : isPrefixType (byteAt d 0) = true := htype ▸ hpre
  obtain ⟨hlenc, -, hoffc⟩ := hc.prefix_ hpre
  obtain ⟨hlend, -, hoffd⟩ := hd.prefix_ hpred
  have hskipc : patternSkip isV6 ≤ c.length := by omega
  have hskipd : patternSkip isV6 ≤ d.length := by omega
  have hheader := take_patternSkip_eq_iff hskipc hskipd hoffc hoffd
  have htake : (c.take (patternSkip isV6)).length = (d.take (patternSkip isV6)).length := by
    rw [List.length_take, List.length_take]
    omega
  rw [canonComp, canonComp, if_pos hpre, if_pos hpred]
  constructor
  · intro h
    obtain ⟨hhead, hmask⟩ := List.append_inj h htake
    obtain ⟨-, hoff, hlen⟩ := hheader.1 hhead
    refine ⟨hoff, hlen, ?_⟩
    rw [← hlen] at hmask
    rw [maskBytes_pattern hc hpre, hmask]
    have hpat := maskBytes_pattern hd hpred
    rw [← hlen] at hpat
    rw [hpat]
  · rintro ⟨hoff, hlen, hmask⟩
    have hpat := maskBytes_pattern hd hpred
    rw [← hlen] at hpat
    rw [maskBytes_pattern hc hpre, hpat] at hmask
    rw [← hlen, hheader.2 ⟨htype, hoff, hlen⟩, List.append_cancel_right hmask]

/-- Components that compare equal are the same, up to bits behind a prefix. -/
theorem compCmp_eq_iff (hc : CompOk isV6 c) (hd : CompOk isV6 d) :
    compCmp isV6 c d = .eq ↔ canonComp isV6 c = canonComp isV6 d := by
  rw [compCmp, thenOn, Ordering.then_eq_eq, Nat.compare_eq_eq]
  by_cases htype : byteAt c 0 = byteAt d 0
  · rw [and_iff_right htype]
    by_cases hpre : isPrefixType (byteAt c 0) = true
    · rw [if_pos hpre, canonComp_eq_iff_of_prefix hc hd hpre htype, thenOn, Ordering.then_eq_eq,
        Nat.compare_eq_eq, gradedCmp, Ordering.then_eq_eq, Nat.compare_eq_eq]
      apply and_congr_right
      intro hoff
      show maskCmp (min (patternLen isV6 c) (patternLen isV6 d)) _ _ = _ ∧
        patternLen isV6 d = patternLen isV6 c ↔ _
      constructor
      · rintro ⟨hmask, hlen⟩
        rw [hlen, Nat.min_self] at hmask
        exact ⟨hlen.symm, compare_eq_iff_eq.1 hmask⟩
      · rintro ⟨hlen, hmask⟩
        rw [← hlen, Nat.min_self]
        exact ⟨compare_eq_iff_eq.2 hmask, rfl⟩
    · have hkey : ∀ a ∈ c, ∀ b ∈ d, compare a b = .eq ↔ id a = id b := fun a _ b _ =>
        compare_eq_iff_eq
      rw [if_neg hpre, lexEnd_eq_iff hkey, canonComp, canonComp, if_neg hpre, if_neg (htype ▸ hpre),
        List.map_id, List.map_id]
  · constructor
    · rintro ⟨h, -⟩
      exact absurd h htype
    · intro h
      have hbyte := congrArg (byteAt · 0) h
      simp only [byteAt_canonComp hc, byteAt_canonComp hd] at hbyte
      exact absurd hbyte htype

/-! ## The code -/

theorem maskBytes_congr {a b : List UInt8} (ha : prefixBytes n ≤ a.length)
    (hlen : a.length = b.length) (h : a.take (prefixBytes n) = b.take (prefixBytes n)) :
    maskBytes n a = maskBytes n b := by
  have hsplit : ∀ l : List UInt8, prefixBytes n ≤ l.length → maskBytes n l =
      maskBytes n (l.take (prefixBytes n)) ++ List.replicate (l.length - prefixBytes n) 0 := by
    intro l hl
    have htake : (l.take (prefixBytes n)).length = prefixBytes n := by
      rw [List.length_take, Nat.min_eq_left hl]
    have happend := maskBytes_append (l.drop (prefixBytes n)) htake.ge
    rw [List.take_append_drop, List.length_drop] at happend
    exact happend
  rw [hsplit a ha, hsplit b (hlen ▸ ha), h, hlen]

/-- What `extract_prefix` reads of a component. -/
theorem extractPrefix_pattern (hok : CompOk isV6 (buf.take l)) (hl : l ≤ buf.length)
    (hpre : isPrefixType (byteAt (buf.take l) 0) = true) (hn : n ≤ patternLen isV6 (buf.take l)) :
    (extractPrefix (buf.drop (patternSkip isV6)) (l - patternSkip isV6) n (patternMax isV6)).1 =
      maskBytes n (pattern isV6 (buf.take l)).1.1 := by
  obtain ⟨hlen, hle, -⟩ := hok.prefix_ hpre
  rw [List.length_take, Nat.min_eq_left hl] at hlen
  have hbytes : prefixBytes n ≤ prefixBytes (patternLen isV6 (buf.take l)) := by
    unfold prefixBytes
    omega
  have hmax : prefixBytes (patternLen isV6 (buf.take l)) ≤ patternMax isV6 := by
    unfold prefixBytes
    omega
  have hbuf : prefixBytes n ≤ (buf.drop (patternSkip isV6)).length := by
    rw [List.length_drop]
    omega
  have hcomp : ((buf.take l).drop (patternSkip isV6)).length ≤ patternMax isV6 := by
    rw [List.length_drop, List.length_take]
    omega
  rw [extractPrefix, if_neg (by omega), padTo_extractLoop hbuf (hbytes.trans hmax), pattern]
  apply maskBytes_congr
  · simp only [List.length_append, List.length_take, List.length_replicate]
    omega
  · rw [(padTo _ _).2]
    simp only [List.length_append, List.length_take, List.length_replicate]
    omega
  · rw [padTo_val hcomp, List.take_append_of_le_length, List.take_append_of_le_length,
      List.take_take,
      Nat.min_self, List.drop_take, List.take_take, Nat.min_eq_left]
    · omega
    · rw [List.length_drop, List.length_take]
      omega
    · rw [List.length_take]
      omega

/-- Two prefix components of one type. -/
theorem cmpPattern_eq {k : ℕ} (ha : CompOk isV6 (a.take l)) (hl : l ≤ a.length)
    (hb : CompOk isV6 (b.take k)) (hk : k ≤ b.length)
    (hprea : isPrefixType (byteAt (a.take l) 0) = true)
    (hpreb : isPrefixType (byteAt (b.take k) 0) = true) :
    cmpPattern a l b k (patternSkip isV6) (patternMax isV6) (patternLen isV6 (a.take l))
        (patternLen isV6 (b.take k)) =
      gradedCmp maskCmp (pattern isV6 (a.take l)) (pattern isV6 (b.take k)) := by
  rw [cmpPattern, gradedCmp, maskCmp, memcmp,
    extractPrefix_pattern ha hl hprea (Nat.min_le_left _ _),
    extractPrefix_pattern hb hk hpreb (Nat.min_le_right _ _)]
  rfl

/-- The code compares two components in the order `compCmp`. -/
theorem cmpComponent_eq {k type' : ℕ} (ha : flowspecNextComponent a isV6 = some (l, type))
    (hb : flowspecNextComponent b isV6 = some (k, type')) :
    (compare type type').then (cmpComponent isV6 type a l b k) =
      compCmp isV6 (a.take l) (b.take k) := by
  obtain ⟨hlpos, hl, rfl, haok⟩ := flowspecNextComponent_spec ha
  obtain ⟨hkpos, hk, rfl, hbok⟩ := flowspecNextComponent_spec hb
  rw [compCmp, thenOn, byteAt_take hlpos, byteAt_take hkpos]
  -- the rest only counts for components of one type
  cases htype : compare (byteAt a 0) (byteAt b 0) with
  | lt => rfl
  | gt => rfl
  | eq =>
    have heq := Nat.compare_eq_eq.1 htype
    simp only [Ordering.eq_then]
    rw [cmpComponent]
    by_cases hpre : isPrefixType (byteAt a 0) = true
    · have hprea : isPrefixType (byteAt (a.take l) 0) = true := by rwa [byteAt_take hlpos]
      have hpreb : isPrefixType (byteAt (b.take k) 0) = true := by rwa [byteAt_take hkpos, ← heq]
      have hpattern := cmpPattern_eq haok hl hbok hk hprea hpreb
      have hlena := (haok.prefix_ hprea).1
      have hlenb := (hbok.prefix_ hpreb).1
      rw [List.length_take, Nat.min_eq_left hl] at hlena
      rw [List.length_take, Nat.min_eq_left hk] at hlenb
      rw [if_pos hpre, if_pos hpre, thenOn, ← hpattern]
      cases isV6 with
      | false =>
        simp only [patternSkip, Bool.false_eq_true, if_false] at hlena hlenb
        simp only [patternLen, patternOff, patternSkip, patternMax, Bool.not_false, if_true,
          Bool.false_eq_true, if_false, Nat.sub_zero, flowspecCmpPrefix4]
        rw [byteAt_take (by omega), byteAt_take (by omega)]
        rfl
      | true =>
        simp only [patternSkip, if_true] at hlena hlenb
        simp only [patternLen, patternOff, patternSkip, patternMax, Bool.not_true, if_true,
          Bool.false_eq_true, if_false, flowspecCmpPrefix6]
        rw [byteAt_take (by omega), byteAt_take (by omega), byteAt_take (by omega),
          byteAt_take (by omega)]
    · rw [if_neg hpre, if_neg hpre, lexEnd_eq_take, List.length_take, List.length_take,
        Nat.min_eq_left hl, Nat.min_eq_left hk, List.take_take, List.take_take,
        Nat.min_eq_left (Nat.min_le_left _ _), Nat.min_eq_left (Nat.min_le_right _ _)]
      rfl

/-- The loop of `flowspec_cmp` is the lexicographic order of the components. -/
theorem cmpLoop_eq {prev prev' : ℕ} (ha : validLoop isV6 n prev a = true)
    (hb : validLoop isV6 m prev' b = true) (hane : a ≠ []) (hbne : b ≠ []) :
    cmpLoop isV6 n a b =
      lexEnd (compCmp isV6) (flowComponents isV6 n a) (flowComponents isV6 m b) := by
  induction n generalizing m a b prev prev' with
  | zero => exact absurd ha (by simpa [validLoop] using hane)
  | succ n ih =>
    obtain ⟨_, l, type, hn, hnexta, harest⟩ := validLoop_cons ha hane
    cases hn
    obtain ⟨m, k, type', rfl, hnextb, hbrest⟩ := validLoop_cons hb hbne
    have hempty : ¬(a.isEmpty = true ∨ b.isEmpty = true) := by simp [hane, hbne]
    rw [cmpLoop, if_neg hempty, flowComponents, flowComponents]
    simp only [hnexta, hnextb]
    rw [lexEnd_cons_cons, ← cmpComponent_eq hnexta hnextb, Ordering.then_assoc]
    congr 2
    -- the rest of both NLRI
    by_cases ha' : a.drop l = []
    · by_cases hb' : b.drop k = []
      · have hend : cmpLoop isV6 n [] [] = .eq := by cases n <;> rfl
        simp [ha', hb', hend]
      · obtain ⟨m, k', _, rfl, hnext, -⟩ := validLoop_cons hbrest hb'
        simp [ha', hb', flowComponents, hnext]
    · by_cases hb' : b.drop k = []
      · obtain ⟨n, l', _, rfl, hnext, -⟩ := validLoop_cons harest ha'
        simp [ha', hb', flowComponents, hnext]
      · rw [if_neg (by simp [hb']), if_neg (by simp [ha'])]
        exact ih harest hbrest ha' hb'

/-- A valid flow specification, as its components. -/
def flowKey (isV6 : Bool) (flow : List UInt8) : List (List UInt8) :=
  flowComponents isV6 flow.length flow

theorem flowspecCmp_eq (ha : flowspecValid a isV6 = true) (hb : flowspecValid b isV6 = true) :
    flowspecCmp a b isV6 = lexEnd (compCmp isV6) (flowKey isV6 a) (flowKey isV6 b) := by
  simp only [flowspecValid, Bool.and_eq_true, Bool.not_eq_true', List.isEmpty_eq_false_iff] at ha hb
  exact cmpLoop_eq ha.2 hb.2 ha.1.1 hb.1.1

/-- The components with the bits behind prefixes cleared. -/
def flowCanon (isV6 : Bool) (flow : List UInt8) : List (List UInt8) :=
  (flowKey isV6 flow).map (canonComp isV6)

theorem lexEnd_flowKey_eq_iff :
    lexEnd (compCmp isV6) (flowKey isV6 a) (flowKey isV6 b) = .eq ↔
      flowCanon isV6 a = flowCanon isV6 b :=
  lexEnd_eq_iff fun _ hc _ hd => compCmp_eq_iff (compOk_of_mem hc) (compOk_of_mem hd)

end Bgpd.Rde.Nlri
