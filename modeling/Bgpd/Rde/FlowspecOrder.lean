import Bgpd.Rde.FlowspecAddr

/-!
# The Order of Valid Flow Specifications

`flowspec_cmp` is a total order of the valid NLRI of an address family. Of two prefixes the one that
matches fewer addresses comes first.

## Main results

- `compCmp_of_matches`: a more specific component comes first
- `flowspecCmp_order`
-/

namespace Bgpd.Rde.Nlri

open Bgpd.Lib

variable {isV6 : Bool} {buf a b c d : List UInt8} {l n type : ℕ}

/-! ## Addresses that a component matches -/

/-- The address, as its bits, has the bits of the pattern at their place. -/
def Matches (isV6 : Bool) (comp : List UInt8) (addr : ℕ → Bool) : Prop :=
  ∀ i, patternOff isV6 comp ≤ i → i < byteAt comp 1 →
    addr i = bitAt (comp.drop (patternSkip isV6)) (i - patternOff isV6 comp)

/-- The component `c` matches fewer addresses than `d`. -/
structure MoreSpecific (isV6 : Bool) (c d : List UInt8) : Prop where
  contained : ∀ addr, Matches isV6 c addr → Matches isV6 d addr
  strict : ∃ addr, Matches isV6 d addr ∧ ¬Matches isV6 c addr

/-- A component matches the address that is made of its pattern. -/
theorem exists_matches (isV6 : Bool) (c : List UInt8) :
    Matches isV6 c fun i => bitAt (c.drop (patternSkip isV6)) (i - patternOff isV6 c) :=
  fun _ _ _ => rfl

/-- The bits of the less specific component are bits of the other. -/
theorem bit_of_contained (h : ∀ addr, Matches isV6 c addr → Matches isV6 d addr) {i : ℕ}
    (hoff : patternOff isV6 d ≤ i) (hlen : i < byteAt d 1) :
    patternOff isV6 c ≤ i ∧ i < byteAt c 1 ∧
      bitAt (c.drop (patternSkip isV6)) (i - patternOff isV6 c) =
        bitAt (d.drop (patternSkip isV6)) (i - patternOff isV6 d) := by
  have hin : patternOff isV6 c ≤ i ∧ i < byteAt c 1 := by
    by_contra hout
    -- this bit of an address that `c` matches can be chosen freely
    have hchosen : Matches isV6 c (Function.update
        (fun j => bitAt (c.drop (patternSkip isV6)) (j - patternOff isV6 c)) i
        !bitAt (d.drop (patternSkip isV6)) (i - patternOff isV6 d)) := by
      intro j hjoff hjlen
      rw [Function.update_of_ne]
      rintro rfl
      exact hout ⟨hjoff, hjlen⟩
    have hbit := h _ hchosen i hoff hlen
    rw [Function.update_self] at hbit
    exact Bool.not_ne_self _ hbit
  exact ⟨hin.1, hin.2, h _ (exists_matches isV6 c) i hoff hlen⟩

/-- A prefix component of an IPv6 NLRI has a pattern. -/
theorem off_lt_of_next (h : flowspecNextComponent buf true = some (l, type))
    (hpre : isPrefixType (byteAt (buf.take l) 0) = true) :
    byteAt (buf.take l) 2 < byteAt (buf.take l) 1 := by
  obtain ⟨hpos, -, htype, -⟩ := flowspecNextComponent_spec h
  rw [byteAt_take (by omega), ← htype] at hpre
  rcases buf with - | ⟨t, rest⟩
  · cases h
  have hprefix : isPrefixType t.toNat = true := by
    rw [htype] at hpre
    exact hpre
  simp only [flowspecNextComponent, hprefix, if_true, Bool.not_true, Bool.false_eq_true,
    if_false] at h
  split_ifs at h with hrange
  rcases rest with - | ⟨plen, - | ⟨off, rest⟩⟩
  · cases h
  · cases h
  · simp only at h
    split_ifs at h with hbad hlen
    cases h
    rw [byteAt_take (by omega), byteAt_take (by omega)]
    show off.toNat < plen.toNat
    omega

theorem exists_next_of_mem (h : c ∈ flowComponents isV6 n buf) :
    ∃ buf' l type, flowspecNextComponent buf' isV6 = some (l, type) ∧ c = buf'.take l := by
  induction n generalizing buf with
  | zero => exact nomatch h
  | succ n ih =>
    rw [flowComponents] at h
    cases hnext : flowspecNextComponent buf isV6 with
    | none => simp [hnext] at h
    | some x =>
      obtain ⟨l, type⟩ := x
      simp only [hnext, List.mem_cons] at h
      rcases h with rfl | h
      · exact ⟨buf, l, type, hnext, rfl⟩
      · exact ih h

/-- Only an IPv4 component has an empty pattern. -/
theorem inet_of_empty (hc : c ∈ flowKey isV6 a) (hpre : isPrefixType (byteAt c 0) = true)
    (hempty : byteAt c 1 ≤ patternOff isV6 c) : isV6 = false := by
  cases isV6 with
  | false => rfl
  | true =>
    obtain ⟨buf, l, type, hnext, rfl⟩ := exists_next_of_mem hc
    have hlt := off_lt_of_next hnext hpre
    have hoff : patternOff true (buf.take l) = byteAt (buf.take l) 2 := rfl
    omega

/-! ## The order -/

/-- The pattern of a component in its array. -/
theorem bitAt_pattern (hok : CompOk isV6 c) (hpre : isPrefixType (byteAt c 0) = true) (i : ℕ) :
    bitAt (pattern isV6 c).1.1 i = bitAt (c.drop (patternSkip isV6)) i := by
  obtain ⟨hlen, hle, -⟩ := hok.prefix_ hpre
  have hfits : (c.drop (patternSkip isV6)).length ≤ patternMax isV6 := by
    rw [List.length_drop, hlen]
    unfold prefixBytes
    omega
  rw [pattern]
  dsimp only
  rw [padTo_val hfits, bitAt_append_replicate]

/-- A more specific component comes first. -/
theorem compCmp_of_matches (hc : c ∈ flowKey isV6 a) (hd : d ∈ flowKey isV6 b)
    (hpre : isPrefixType (byteAt c 0) = true) (htype : byteAt c 0 = byteAt d 0)
    (h : MoreSpecific isV6 c d) : compCmp isV6 c d = .lt := by
  have hcok : CompOk isV6 c := compOk_of_mem hc
  have hdok : CompOk isV6 d := compOk_of_mem hd
  have hpred : isPrefixType (byteAt d 0) = true := htype ▸ hpre
  obtain ⟨-, -, hdoff⟩ := hdok.prefix_ hpred
  obtain ⟨-, -, hcoff⟩ := hcok.prefix_ hpre
  have hbit := fun i => bit_of_contained (i := i) h.contained
  -- the more specific pattern starts no later
  have hoffle : patternOff isV6 c ≤ patternOff isV6 d := by
    by_cases hempty : byteAt d 1 ≤ patternOff isV6 d
    · obtain rfl := inet_of_empty hd hpred hempty
      exact le_refl 0
    · exact (hbit (patternOff isV6 d) (le_refl _) (by omega)).1
  -- with the same start it is longer, and equal as far as the other goes
  have hgraded : patternOff isV6 c = patternOff isV6 d →
      gradedCmp maskCmp (pattern isV6 c) (pattern isV6 d) = .lt := by
    intro hoff
    have hsame : ∀ k < patternLen isV6 d,
        k < patternLen isV6 c ∧ bitAt (pattern isV6 c).1.1 k = bitAt (pattern isV6 d).1.1 k := by
      intro k hk
      unfold patternLen at hk ⊢
      obtain ⟨-, hlt, heq⟩ := hbit (patternOff isV6 d + k) (by omega) (by omega)
      rw [hoff, Nat.add_sub_cancel_left] at heq
      rw [bitAt_pattern hcok hpre, bitAt_pattern hdok hpred]
      exact ⟨by omega, heq⟩
    -- no shorter, because every bit of `d` is one of `c`
    have hlen : patternLen isV6 d ≤ patternLen isV6 c := by
      by_contra hlt
      have := (hsame (patternLen isV6 c) (by omega)).1
      omega
    -- with the same length the components would match the same addresses
    have hne : patternLen isV6 d ≠ patternLen isV6 c := by
      intro heq
      obtain ⟨addr, haddr, hno⟩ := h.strict
      apply hno
      intro i hioff hilen
      rw [haddr i (hoff ▸ hioff) (by unfold patternLen at heq; omega)]
      unfold patternLen at heq hsame
      obtain ⟨-, hbits⟩ := hsame (i - patternOff isV6 d) (by omega)
      rw [bitAt_pattern hcok hpre, bitAt_pattern hdok hpred] at hbits
      rw [hoff, hbits]
    have hmask : maskCmp (patternLen isV6 d) (pattern isV6 c).1 (pattern isV6 d).1 = .eq := by
      have hbytes : maskBytes (patternLen isV6 d) (pattern isV6 c).1.1 =
          maskBytes (patternLen isV6 d) (pattern isV6 d).1.1 := by
        apply eq_of_bitAt
        · rw [length_maskBytes, length_maskBytes, (pattern isV6 c).1.2, (pattern isV6 d).1.2]
        · intro i _
          rw [bitAt_maskBytes, bitAt_maskBytes]
          by_cases hi : i < patternLen isV6 d
          · rw [(hsame i hi).2]
          · rw [decide_eq_false hi, Bool.and_false, Bool.and_false]
      rw [maskCmp, hbytes]
      exact Std.ReflCmp.compare_self
    show (maskCmp (min (patternLen isV6 c) (patternLen isV6 d)) _ _).then
      (compare (patternLen isV6 d) (patternLen isV6 c)) = .lt
    rw [Nat.min_eq_right hlen, hmask, Ordering.eq_then]
    exact Nat.compare_eq_lt.mpr (by omega)
  unfold compCmp
  simp only [thenOn, htype, hpred, if_true, Nat.compare_eq_eq.mpr, Ordering.eq_then]
  -- the offset decides, or the two start at one bit
  rcases hoffle.lt_or_eq with hlt | heq
  · rw [Nat.compare_eq_lt.mpr hlt]
    rfl
  · rw [Nat.compare_eq_eq.mpr heq, Ordering.eq_then]
    exact hgraded heq

/-- The first difference of two NLRI is a prefix component, which is more specific in the first. -/
def FirstMoreSpecific (isV6 : Bool) (a b : List UInt8) : Prop :=
  ∃ pre pre' c d rest rest', flowKey isV6 a = pre ++ c :: rest ∧
    flowKey isV6 b = pre' ++ d :: rest' ∧ pre.map (canonComp isV6) = pre'.map (canonComp isV6) ∧
    byteAt c 0 = byteAt d 0 ∧ isPrefixType (byteAt c 0) = true ∧ MoreSpecific isV6 c d

/-- What the comparison of NLRI has to be: an order, equal for the same components, with the more
    specific prefix first. -/
structure OrderOk (isV6 : Bool) (a b c : List UInt8) : Prop where
  antisymm : flowspecCmp b a isV6 = (flowspecCmp a b isV6).swap
  trans : (flowspecCmp a b isV6).isLE → (flowspecCmp b c isV6).isLE → (flowspecCmp a c isV6).isLE
  total : (flowspecCmp a b isV6).isLE ∨ (flowspecCmp b a isV6).isLE
  eq_iff : flowspecCmp a b isV6 = .eq ↔ flowCanon isV6 a = flowCanon isV6 b
  specific : FirstMoreSpecific isV6 a b → flowspecCmp a b isV6 = .lt

/-- The comparison is a total order of the valid NLRI. -/
theorem flowspecCmp_order (ha : flowspecValid a isV6 = true) (hb : flowspecValid b isV6 = true)
    (hc : flowspecValid c isV6 = true) : OrderOk isV6 a b c := by
  have htrans : Std.TransCmp (lexEnd (compCmp isV6)) := by
    have := @compCmp_trans isV6
    exact lexEnd_trans
  have hswap : flowspecCmp b a isV6 = (flowspecCmp a b isV6).swap := by
    rw [flowspecCmp_eq ha hb, flowspecCmp_eq hb ha]
    exact Std.OrientedCmp.eq_swap
  refine ⟨hswap, ?_, ?_, ?_, ?_⟩
  · rw [flowspecCmp_eq ha hb, flowspecCmp_eq hb hc, flowspecCmp_eq ha hc]
    exact fun hab hbc => Std.TransCmp.isLE_trans hab hbc
  · rw [hswap]
    cases flowspecCmp a b isV6 with
    | lt => exact .inl rfl
    | eq => exact .inl rfl
    | gt => exact .inr rfl
  · rw [flowspecCmp_eq ha hb]
    exact lexEnd_flowKey_eq_iff
  · rintro ⟨pre, pre', x, y, rest, rest', hkeya, hkeyb, hpre, htype, hprefix, hspec⟩
    have hokeq : ∀ p ∈ pre, ∀ q ∈ pre', compCmp isV6 p q = .eq ↔
        canonComp isV6 p = canonComp isV6 q := by
      intro p hp q hq
      apply compCmp_eq_iff
      · exact compOk_of_mem (hkeya ▸ List.mem_append_left _ hp : p ∈ flowKey isV6 a)
      · exact compOk_of_mem (hkeyb ▸ List.mem_append_left _ hq : q ∈ flowKey isV6 b)
    have hx : x ∈ flowKey isV6 a := hkeya ▸ List.mem_append_right _ List.mem_cons_self
    have hy : y ∈ flowKey isV6 b := hkeyb ▸ List.mem_append_right _ List.mem_cons_self
    rw [flowspecCmp_eq ha hb, hkeya, hkeyb, lexEnd_append hokeq hpre, lexEnd_cons_cons,
      compCmp_of_matches hx hy hprefix htype hspec]
    rfl

/-- Two destinations and a source. -/
theorem flowspecCmp_order_sample :
    OrderOk false [1, 24, 192, 168, 32] [1, 20, 192, 168, 32] [2, 8, 10] :=
  flowspecCmp_order (by decide) (by decide) (by decide)

end Bgpd.Rde.Nlri
