import Bgpd.Lib.ByteBits
import Bgpd.Rde.FlowspecSpec
import Bgpd.Rde.Types

/-!
# Components and Addresses of Flow Specifications

`flowspec_get_component` searches a component by its type and `flowspec_get_addr` makes an address
of a destination or source. An IPv6 pattern begins at an offset, so that its bits are shifted into
the address. What is written to the address is a list of stores, each with the index of a byte.

## Main results

- `flowspecGetComponent_eq`: the search ends at the first component of this or a higher type
- `filled_iff`: the address has the bits of the pattern, and when all stores are within it
- `component_exact_iff`
-/

namespace Bgpd.Rde.Nlri

open Bgpd.Lib

/-! ## Model -/

/-- The loop of `flowspec_get_component`: the result and the component without its type. -/
def getLoop (isV6 : Bool) (type : ℕ) : ℕ → List UInt8 → Int × List UInt8
  | 0, _ => (-1, [])
  | n + 1, flow =>
    match flowspecNextComponent flow isV6 with
    | none => (-1, [])
    | some (complen, t) =>
      if type = t then (1, (flow.take complen).drop 1)
      else if type < t then (0, [])
      else getLoop isV6 type n (flow.drop complen)

/-- `flowspec_get_component` -/
def flowspecGetComponent (flow : List UInt8) (type : ℕ) (isV6 : Bool) : Int × List UInt8 :=
  getLoop isV6 type (flow.length + 1) flow

/-- The loop of `shift_right` and the store behind it, from byte `i` of the destination on. -/
def shiftLoop (off : ℕ) : ℕ → UInt8 → List UInt8 → List (ℕ × UInt8)
  | i, carry, [] => [(i, carry)]
  | i, carry, b :: src =>
    (i, carry ||| b >>> UInt8.ofNat off) ::
      shiftLoop off (i + 1) (if off ≠ 0 then b <<< UInt8.ofNat (8 - off) else carry) src

/-- `shift_right` -/
def shiftRight (src : List UInt8) (off len : ℕ) : List (ℕ × UInt8) :=
  shiftLoop (off % 8) (off / 8) 0 (src.take (prefixBytes len))

/-- What `flowspec_get_addr` returns and stores: the bytes at `addr->v4` or `addr->v6`, `*plen` and
    `*olen`. -/
structure GotAddr where
  rv : Int
  aid : Option Aid := none
  stores : List (ℕ × UInt8) := []
  plen : ℕ := 0
  olen : ℕ := 0
  deriving DecidableEq

/-- `flowspec_get_addr`; `withOlen` says that `olen` is not `NULL`. -/
def flowspecGetAddr (flow : List UInt8) (type : ℕ) (isV6 withOlen : Bool) : GotAddr :=
  let (rv, comp) := flowspecGetComponent flow type isV6
  if rv ≠ 1 then { rv := rv }
  else if !isV6 then
    if comp.length - 1 < prefixBytes (byteAt comp 0) ∨ 4 < prefixBytes (byteAt comp 0) then
      { rv := -1, aid := some .inet }
    else
      { rv := 1, aid := some .inet, plen := byteAt comp 0
        stores := (extractLoop (byteAt comp 0) (comp.drop 1)).zipIdx.map Prod.swap }
  else if byteAt comp 1 ≠ 0 ∧ !withOlen then { rv := -1, aid := some .inet6 }
  else
    let xlen := byteAt comp 0 - byteAt comp 1
    if comp.length - 2 < prefixBytes xlen ∨ 16 < prefixBytes xlen then
      { rv := -1, aid := some .inet6 }
    else
      { rv := 1, aid := some .inet6, plen := byteAt comp 0
        stores := shiftRight (padTo 16 (extractLoop xlen (comp.drop 2))).1 (byteAt comp 1) xlen
        olen := if withOlen then byteAt comp 1 else 0 }

/-! ## Memory -/

/-- Memory after some stores. -/
def store (stores : List (ℕ × UInt8)) (mem : ℕ → UInt8) : ℕ → UInt8 :=
  stores.foldl (fun mem st => Function.update mem st.1 st.2) mem

/-- The address, which `memset` cleared before. -/
def GotAddr.bytes (got : GotAddr) (n : ℕ) : List UInt8 :=
  (List.range n).map (store got.stores fun _ => 0)

variable {stores : List (ℕ × UInt8)} {mem : ℕ → UInt8} {p : ℕ}

/-- A byte to which nothing is stored. -/
theorem store_of_ne (h : ∀ st ∈ stores, st.1 ≠ p) : store stores mem p = mem p := by
  induction stores generalizing mem with
  | nil => rfl
  | cons st stores ih =>
    obtain ⟨hst, hstores⟩ := List.forall_mem_cons.mp h
    show store stores (Function.update mem st.1 st.2) p = mem p
    rw [ih hstores, Function.update_of_ne hst.symm]

theorem store_cons_self (st : ℕ × UInt8) (h : ∀ st' ∈ stores, st'.1 ≠ st.1) :
    store (st :: stores) mem st.1 = st.2 := by
  show store stores (Function.update mem st.1 st.2) st.1 = st.2
  rw [store_of_ne h, Function.update_self]

theorem getD_bytes (got : GotAddr) {n : ℕ} (h : p < n) :
    (got.bytes n).getD p 0 = store got.stores (fun _ => 0) p := by
  rw [GotAddr.bytes, List.getD_eq_getElem?_getD, List.getElem?_map, List.getElem?_range h]
  rfl

/-! ## Shifting -/

variable {isV6 : Bool} {buf flow a b c d src : List UInt8} {l m n i off len type : ℕ}
  {carry : UInt8}

theorem shiftLoop_index {st : ℕ × UInt8} (h : st ∈ shiftLoop off i carry src) :
    i ≤ st.1 ∧ st.1 ≤ i + src.length := by
  induction src generalizing i carry with
  | nil =>
    rw [List.mem_singleton.mp h]
    exact ⟨le_refl _, le_refl _⟩
  | cons b src ih =>
    rw [List.length_cons]
    rcases List.mem_cons.mp h with rfl | h
    · exact ⟨le_refl _, by dsimp only; omega⟩
    · obtain ⟨hle, hge⟩ := ih h
      exact ⟨by omega, by omega⟩

/-- The store behind the loop. -/
theorem shiftLoop_last : ∃ st ∈ shiftLoop off i carry src, st.1 = i + src.length := by
  induction src generalizing i carry with
  | nil => exact ⟨_, List.mem_singleton_self _, rfl⟩
  | cons b src ih =>
    obtain ⟨st, hst, hlast⟩ := @ih (i + 1) (if off ≠ 0 then b <<< UInt8.ofNat (8 - off) else carry)
    refine ⟨st, List.mem_cons_of_mem _ hst, ?_⟩
    rw [hlast, List.length_cons]
    omega

/-- The bits behind the carry are those of the source. The carry has the last bits of a byte that
    was shifted. -/
theorem byteBit_shiftLoop (hoff : off < 8) (hcarry : ∀ j, off ≤ j → j < 8 → byteBit carry j = false)
    (hm : m < 8 * (src.length + 1)) :
    byteBit (store (shiftLoop off i carry src) mem (i + m / 8)) (m % 8) =
      if m < off then byteBit carry m else bitAt src (m - off) := by
  induction src generalizing i m carry mem with
  | nil =>
    have hm8 : m < 8 := by simpa using hm
    have hcell : store (shiftLoop off i carry []) mem i = carry :=
      store_cons_self (i, carry) nofun
    rw [Nat.div_eq_of_lt hm8, Nat.mod_eq_of_lt hm8, Nat.add_zero, hcell, bitAt_nil]
    split_ifs with hlt
    · rfl
    · exact hcarry m (Nat.le_of_not_lt hlt) hm8
  | cons b src ih =>
    rw [shiftLoop]
    by_cases hm8 : m < 8
    · -- the byte that is stored first
      have hcell : ∀ v carry', store ((i, v) :: shiftLoop off (i + 1) carry' src) mem i = v := by
        intro v carry'
        apply store_cons_self (i, v)
        intro st hst
        have := (shiftLoop_index hst).1
        dsimp only
        omega
      have hpos : i + m / 8 = i := by omega
      rw [hpos, Nat.mod_eq_of_lt hm8, hcell, byteBit_or, byteBit_shiftRight b hoff hm8]
      split_ifs with hlt
      · rw [decide_eq_false (Nat.not_le.mpr hlt), Bool.false_and, Bool.or_false]
      · rw [hcarry m (Nat.le_of_not_lt hlt) hm8, decide_eq_true (Nat.le_of_not_lt hlt),
          Bool.true_and, Bool.false_or, bitAt_cons, if_pos (by omega)]
    · -- a byte of the rest, whose carry comes from `b`
      have hpos : i + m / 8 = i + 1 + (m - 8) / 8 := by omega
      have hmod : m % 8 = (m - 8) % 8 := by omega
      have hlen : m - 8 < 8 * (src.length + 1) := by
        rw [List.length_cons] at hm
        omega
      have hrest : ∀ carry', (∀ j, off ≤ j → j < 8 → byteBit carry' j = false) →
          byteBit (store ((i, carry ||| b >>> UInt8.ofNat off) :: shiftLoop off (i + 1) carry' src)
            mem (i + m / 8)) (m % 8) =
          if m - 8 < off then byteBit carry' (m - 8) else bitAt src (m - 8 - off) := by
        intro carry' hcarry'
        rw [hpos, hmod]
        exact ih hcarry' hlen
      have hnot : ¬m < off := by omega
      -- nothing is shifted when the offset is a multiple of 8
      by_cases hzero : off = 0
      · rw [if_neg (not_not.mpr hzero), hrest carry hcarry, if_neg hnot, if_neg (by omega),
          bitAt_cons, if_neg (by omega)]
        congr 1
        omega
      -- the low bits of `b` are the carry into the next byte
      · have h8 : 8 - off < 8 := by omega
        rw [if_pos hzero, hrest _ fun j hj hj8 => ?_, if_neg hnot]
        -- in the carry, or behind it
        · split_ifs with hlt
          · rw [byteBit_shiftLeft b h8 (by omega), decide_eq_true (by omega), Bool.true_and,
              bitAt_cons, if_pos (by omega)]
            congr 1
            omega
          · rw [bitAt_cons, if_neg (by omega)]
            congr 1
            omega
        · rw [byteBit_shiftLeft b h8 hj8, decide_eq_false (by omega), Bool.false_and]

/-! ## Patterns -/

theorem byteBit_and_addrmask (x : UInt8) {n j : ℕ} (hn : n ≤ 8) (hj : j < 8) :
    byteBit (x &&& addrmask n) j = (byteBit x j && decide (j < n)) := by
  have hmask : ∀ n < 9, ∀ j < 8, byteBit (addrmask n) j = decide (j < n) := by decide
  unfold byteBit at hmask ⊢
  rw [UInt8.toNat_and, Nat.testBit_and, hmask n (by omega) j hj]

/-- A mask keeps the first bits. -/
theorem bitAt_maskBytes (n : ℕ) (p : List UInt8) (i : ℕ) :
    bitAt (maskBytes n p) i = (bitAt p i && decide (i < n)) := by
  induction p generalizing n i with
  | nil => simp [maskBytes]
  | cons b p ih =>
    rw [maskBytes]
    split_ifs with hle
    · rw [bitAt_cons, bitAt_cons, ih]
      split_ifs with hi
      · rw [decide_eq_true (by omega), Bool.and_true]
      · congr 1
        apply Bool.decide_congr
        omega
    · rw [bitAt_cons, bitAt_cons, ih]
      split_ifs with hi
      · exact byteBit_and_addrmask b (by omega) hi
      · rw [decide_eq_false (Nat.not_lt_zero _), decide_eq_false (by omega), Bool.and_false]

theorem length_extractLoop {p : List UInt8} (h : prefixBytes n ≤ p.length) :
    (extractLoop n p).length = prefixBytes n := by
  rw [extractLoop_eq h, length_maskBytes, List.length_take, Nat.min_eq_left h]

/-- What `extract_prefix` writes are the bits within the length. -/
theorem bitAt_extractLoop {p : List UInt8} (h : prefixBytes n ≤ p.length) (i : ℕ) :
    bitAt (extractLoop n p) i = (bitAt p i && decide (i < n)) := by
  rw [extractLoop_eq h, bitAt_maskBytes]
  by_cases hi : i < n
  · rw [bitAt_take (by unfold prefixBytes; omega)]
  · rw [decide_eq_false hi, Bool.and_false, Bool.and_false]

/-- A prefix in a cleared array. -/
theorem bitAt_padTo {p : List UInt8} {max : ℕ} (h : prefixBytes n ≤ max)
    (hp : prefixBytes n ≤ p.length) (i : ℕ) :
    bitAt (padTo max (extractLoop n p)).1 i = (bitAt p i && decide (i < n)) := by
  rw [padTo_val (by rw [length_extractLoop hp]; exact h), bitAt_append_replicate,
    bitAt_extractLoop hp]

/-! ## Searching a component -/

/-- The types of the components ascend. -/
theorem types_ascend {prev : ℕ} (h : validLoop isV6 n prev buf = true) :
    (∀ c ∈ flowComponents isV6 n buf, prev < byteAt c 0) ∧
      (flowComponents isV6 n buf).Pairwise fun c d => byteAt c 0 < byteAt d 0 := by
  induction n generalizing prev buf with
  | zero => exact ⟨List.forall_mem_nil _, List.Pairwise.nil⟩
  | succ n ih =>
    rw [flowComponents]
    rw [validLoop] at h
    cases hnext : flowspecNextComponent buf isV6 with
    | none => exact ⟨List.forall_mem_nil _, List.Pairwise.nil⟩
    | some x =>
      obtain ⟨l, type⟩ := x
      obtain ⟨hpos, hl, htype, -⟩ := flowspecNextComponent_spec hnext
      have hne : ¬buf.isEmpty = true := by
        intro hempty
        rw [List.isEmpty_iff.mp hempty] at hl
        simp only [List.length_nil] at hl
        omega
      simp only [if_neg hne, hnext] at h
      split_ifs at h with hprev
      obtain ⟨hgt, hpair⟩ := ih h
      have hhead : byteAt (buf.take l) 0 = type := by rw [byteAt_take (by omega), htype]
      refine ⟨?_, List.pairwise_cons.mpr ⟨fun c hc => ?_, hpair⟩⟩
      · intro c hc
        rcases List.mem_cons.mp hc with rfl | hc
        · rw [hhead]
          omega
        · have := hgt c hc
          omega
      · rw [hhead]
        exact hgt c hc

/-- The result of the search, given the first component of this type or a higher one. -/
def foundComponent (type : ℕ) : Option (List UInt8) → Int × List UInt8
  | none => (-1, [])
  | some c => if byteAt c 0 = type then (1, c.drop 1) else (0, [])

/-- The search ends at the first component of this type or a higher one. -/
theorem getLoop_eq {prev : ℕ} (h : validLoop isV6 n prev buf = true) (hnm : n < m) :
    getLoop isV6 type m buf =
      foundComponent type ((flowComponents isV6 n buf).find? fun c => type ≤ byteAt c 0) := by
  induction n generalizing m prev buf with
  | zero =>
    obtain ⟨m, rfl⟩ := Nat.exists_eq_succ_of_ne_zero hnm.ne'
    obtain rfl : buf = [] := List.isEmpty_iff.mp h
    rfl
  | succ n ih =>
    obtain ⟨m, rfl⟩ := Nat.exists_eq_succ_of_ne_zero (Nat.ne_of_gt (Nat.zero_lt_of_lt hnm))
    by_cases hnil : buf = []
    · subst hnil
      rfl
    · obtain ⟨_, l, t, hn, hnext, hrest⟩ := validLoop_cons h hnil
      cases hn
      obtain ⟨hpos, hl, htype, -⟩ := flowspecNextComponent_spec hnext
      have hhead : byteAt (buf.take l) 0 = t := by rw [byteAt_take (by omega), htype]
      rw [getLoop, flowComponents]
      simp only [hnext]
      by_cases hle : type ≤ t
      · rw [List.find?_cons_of_pos (by rw [hhead]; exact decide_eq_true hle), foundComponent, hhead]
        by_cases heq : type = t
        · rw [if_pos heq, if_pos heq.symm]
        · rw [if_neg heq, if_neg (Ne.symm heq), if_pos (lt_of_le_of_ne hle heq)]
      · rw [List.find?_cons_of_neg (by rw [hhead]; simpa using hle), if_neg (by omega),
          if_neg (by omega)]
        exact ih hrest (by omega)

theorem flowspecGetComponent_eq (h : flowspecValid flow isV6 = true) (type : ℕ) :
    flowspecGetComponent flow type isV6 =
      foundComponent type ((flowKey isV6 flow).find? fun c => type ≤ byteAt c 0) := by
  simp only [flowspecValid, Bool.and_eq_true] at h
  exact getLoop_eq h.2 (Nat.lt_succ_self _)

theorem flowKey_ascend (h : flowspecValid flow isV6 = true) :
    (flowKey isV6 flow).Pairwise fun c d => byteAt c 0 < byteAt d 0 := by
  simp only [flowspecValid, Bool.and_eq_true] at h
  exact (types_ascend h.2).2

/-- The search finds the component of a type. -/
theorem flowspecGetComponent_of_mem (h : flowspecValid flow isV6 = true)
    (hc : c ∈ flowKey isV6 flow) :
    flowspecGetComponent flow (byteAt c 0) isV6 = (1, c.drop 1) := by
  rw [flowspecGetComponent_eq h]
  obtain ⟨l₁, l₂, hsplit⟩ := List.append_of_mem hc
  have hpair := flowKey_ascend h
  rw [hsplit] at hpair
  have hnone : l₁.find? (fun d => decide (byteAt c 0 ≤ byteAt d 0)) = none := by
    rw [List.find?_eq_none]
    intro d hd
    have hlt := (List.pairwise_append.mp hpair).2.2 d hd c List.mem_cons_self
    simpa using hlt
  have hself : (c :: l₂).find? (fun d => decide (byteAt c 0 ≤ byteAt d 0)) = some c :=
    List.find?_cons_of_pos (decide_eq_true (le_refl (byteAt c 0)))
  rw [hsplit, List.find?_append, hnone, Option.none_or, hself, foundComponent, if_pos rfl]

/-- The search for a type that is not there. -/
theorem flowspecGetComponent_of_absent (h : flowspecValid flow isV6 = true)
    (habsent : ∀ c ∈ flowKey isV6 flow, byteAt c 0 ≠ type) :
    (flowspecGetComponent flow type isV6).1 =
      if ∃ c ∈ flowKey isV6 flow, type ≤ byteAt c 0 then 0 else -1 := by
  rw [flowspecGetComponent_eq h]
  cases hfind : (flowKey isV6 flow).find? fun c => decide (type ≤ byteAt c 0) with
  | none =>
    have hno : ¬∃ c ∈ flowKey isV6 flow, type ≤ byteAt c 0 := by
      rintro ⟨c, hc, hle⟩
      exact List.find?_eq_none.mp hfind c hc (decide_eq_true hle)
    rw [if_neg hno]
    rfl
  | some c =>
    have hc := List.mem_of_find?_eq_some hfind
    have hle : type ≤ byteAt c 0 := by simpa using List.find?_some hfind
    rw [if_pos ⟨c, hc, hle⟩, foundComponent, if_neg (habsent c hc)]

/-! ## The address -/

theorem bitAt_bytes (got : GotAddr) (h : i < 8 * n) :
    bitAt (got.bytes n) i = byteBit (store got.stores (fun _ => 0) (i / 8)) (i % 8) := by
  rw [bitAt, getD_bytes got (by omega)]

/-- The bytes of a list are stored one after the other. -/
theorem store_zipIdx (l : List UInt8) (k : ℕ) (mem : ℕ → UInt8) (hmem : ∀ p, k ≤ p → mem p = 0)
    (hp : k ≤ p) : store ((l.zipIdx k).map Prod.swap) mem p = l.getD (p - k) 0 := by
  induction l generalizing k mem with
  | nil => exact hmem p hp
  | cons b l ih =>
    have hbehind : ∀ st ∈ (l.zipIdx (k + 1)).map Prod.swap, st.1 ≠ k := by
      intro st hst
      obtain ⟨⟨b', j⟩, hj, rfl⟩ := List.mem_map.mp hst
      have := (List.mem_zipIdx hj).1
      show j ≠ k
      omega
    rw [List.zipIdx_cons, List.map_cons]
    by_cases heq : p = k
    · subst heq
      rw [Nat.sub_self]
      exact store_cons_self (p, b) hbehind
    · show store ((l.zipIdx (k + 1)).map Prod.swap) (Function.update mem k b) p = _
      rw [ih (k + 1) _ (fun q hq => ?_) (by omega)]
      · have hsub : p - k = p - (k + 1) + 1 := by omega
        rw [hsub, List.getD_cons_succ]
      · rw [Function.update_of_ne (by omega)]
        exact hmem q (by omega)

/-- What `flowspec_get_addr` has to do for the component `c`: the bits of the pattern are at their
    place in the address, and the others are zero. -/
structure Filled (isV6 : Bool) (c : List UInt8) (got : GotAddr) : Prop where
  rv : got.rv = 1
  aid : got.aid = some (if isV6 then .inet6 else .inet)
  plen : got.plen = byteAt c 1
  bits : ∀ i < 8 * patternMax isV6, bitAt (got.bytes (patternMax isV6)) i =
    (decide (patternOff isV6 c ≤ i ∧ i < byteAt c 1) &&
      bitAt (c.drop (patternSkip isV6)) (i - patternOff isV6 c))

/-- Only bytes of the address are written. -/
def GotAddr.Within (got : GotAddr) (n : ℕ) : Prop := ∀ st ∈ got.stores, st.1 < n

theorem byteAt_drop (c : List UInt8) (k n : ℕ) : byteAt (c.drop k) n = byteAt c (k + n) := by
  unfold byteAt
  rw [List.getD_eq_getElem?_getD, List.getElem?_drop, ← List.getD_eq_getElem?_getD]

/-- The shifted bits of a pattern. -/
theorem bitAt_shiftRight {got : GotAddr} (hlen : src.length = 16) (hle : prefixBytes len ≤ 16)
    (hzero : ∀ k, len ≤ k → bitAt src k = false) (hstores : got.stores = shiftRight src off len)
    (hi : i < 8 * 16) :
    bitAt (got.bytes 16) i = (decide (off ≤ i) && bitAt src (i - off)) := by
  have htake : (src.take (prefixBytes len)).length = prefixBytes len := by
    rw [List.length_take, hlen, Nat.min_eq_left hle]
  -- only the bytes of the prefix are read
  have hbits : ∀ k, bitAt (src.take (prefixBytes len)) k = bitAt src k := by
    intro k
    by_cases hk : k < 8 * prefixBytes len
    · exact bitAt_take hk
    · rw [bitAt_of_ge (by rw [htake]; omega), hzero k (by unfold prefixBytes at hk; omega)]
  have hmod : off % 8 < 8 := Nat.mod_lt _ (by decide)
  rw [bitAt_bytes got hi, hstores, shiftRight]
  by_cases hbase : i < 8 * (off / 8)
  · -- the bytes before the pattern
    rw [store_of_ne, byteBit_zero, decide_eq_false (by omega), Bool.false_and]
    intro st hst
    have := (shiftLoop_index hst).1
    omega
  · obtain ⟨m, rfl⟩ : ∃ m, i = 8 * (off / 8) + m := ⟨i - 8 * (off / 8), by omega⟩
    have hdiv : (8 * (off / 8) + m) / 8 = off / 8 + m / 8 := by omega
    have hrem : (8 * (off / 8) + m) % 8 = m % 8 := by omega
    rw [hdiv, hrem]
    -- the bytes that are stored
    by_cases hm : m < 8 * ((src.take (prefixBytes len)).length + 1)
    · rw [byteBit_shiftLoop hmod (fun j _ _ => byteBit_zero j) hm, hbits]
      split_ifs with hlt
      · rw [byteBit_zero, decide_eq_false (by omega), Bool.false_and]
      · rw [decide_eq_true (by omega), Bool.true_and]
        congr 1
        omega
    · -- the bytes behind it
      rw [htake] at hm
      have hbehind : len ≤ 8 * (off / 8) + m - off := by
        unfold prefixBytes at hm
        omega
      rw [store_of_ne, byteBit_zero, hzero _ hbehind, Bool.and_false]
      intro st hst
      have := (shiftLoop_index hst).2
      rw [htake] at this
      omega

theorem shiftRight_within (hlen : src.length = 16) (hle : prefixBytes len ≤ 16) {max : ℕ} :
    (∀ st ∈ shiftRight src off len, st.1 < max) ↔ off / 8 + prefixBytes len < max := by
  have htake : (src.take (prefixBytes len)).length = prefixBytes len := by
    rw [List.length_take, hlen, Nat.min_eq_left hle]
  unfold shiftRight
  constructor
  · intro h
    obtain ⟨st, hst, hlast⟩ := @shiftLoop_last (src.take (prefixBytes len)) (off / 8) (off % 8) 0
    have := h st hst
    rw [hlast, htake] at this
    exact this
  · intro h st hst
    have := (shiftLoop_index hst).2
    rw [htake] at this
    omega

/-- The addresses of IPv4 components. -/
theorem filled_inet {withOlen : Bool} (h : flowspecValid flow false = true)
    (hc : c ∈ flowKey false flow) (hpre : isPrefixType (byteAt c 0) = true) :
    Filled false c (flowspecGetAddr flow (byteAt c 0) false withOlen) ∧
      (flowspecGetAddr flow (byteAt c 0) false withOlen).Within 4 := by
  obtain ⟨hlen, hle, -⟩ := (compOk_of_mem hc).prefix_ hpre
  have hplen : patternLen false c = byteAt c 1 := rfl
  simp only [patternSkip, patternMax, hplen, Bool.false_eq_true, if_false] at hlen hle
  -- a valid prefix fits the address
  have hroom : prefixBytes (byteAt c 1) ≤ 4 := by
    unfold prefixBytes
    omega
  have hrest : prefixBytes (byteAt c 1) ≤ (c.drop 2).length := by
    rw [List.length_drop, hlen]
    omega
  obtain ⟨got, hgot⟩ : ∃ got, got = flowspecGetAddr flow (byteAt c 0) false withOlen := ⟨_, rfl⟩
  have hval : got = ⟨1, some .inet,
      (extractLoop (byteAt c 1) (c.drop 2)).zipIdx.map Prod.swap, byteAt c 1, 0⟩ := by
    rw [hgot, flowspecGetAddr, flowspecGetComponent_of_mem h hc]
    simp only [byteAt_drop, List.drop_drop, List.length_drop, hlen, Nat.reduceAdd, Bool.not_false,
      if_true]
    rw [if_neg (not_not.mpr rfl), if_neg (by omega)]
  rw [← hgot]
  -- every stored byte is inside the address
  refine ⟨⟨by rw [hval], by rw [hval]; rfl, by rw [hval], fun i hi => ?_⟩, fun st hst => ?_⟩
  · have hcell : store got.stores (fun _ => 0) (i / 8) =
        (extractLoop (byteAt c 1) (c.drop 2)).getD (i / 8) 0 := by
      rw [hval]
      exact store_zipIdx _ 0 _ (fun _ _ => rfl) (Nat.zero_le _)
    have hbit := bitAt_extractLoop hrest i
    rw [bitAt] at hbit
    rw [bitAt_bytes got hi, hcell, hbit, Bool.and_comm]
    simp [patternOff, patternSkip]
  · rw [hval] at hst
    obtain ⟨⟨b, j⟩, hj, rfl⟩ := List.mem_map.mp hst
    have hlt := (List.mem_zipIdx hj).2.1
    rw [length_extractLoop hrest] at hlt
    show j < 4
    omega

/-- The addresses of IPv6 components. -/
theorem filled_inet6 {withOlen : Bool} (h : flowspecValid flow true = true)
    (hc : c ∈ flowKey true flow) (hpre : isPrefixType (byteAt c 0) = true)
    (holen : withOlen = true ∨ byteAt c 2 = 0) :
    Filled true c (flowspecGetAddr flow (byteAt c 0) true withOlen) ∧
      ((flowspecGetAddr flow (byteAt c 0) true withOlen).Within 16 ↔
        byteAt c 2 / 8 + prefixBytes (byteAt c 1 - byteAt c 2) < 16) := by
  obtain ⟨hlen, hle, hoff⟩ := (compOk_of_mem hc).prefix_ hpre
  have hplen : patternLen true c = byteAt c 1 - byteAt c 2 := rfl
  have hpoff : patternOff true c = byteAt c 2 := rfl
  simp only [patternSkip, patternMax, hplen, hpoff, if_true] at hlen hle hoff
  have hroom : prefixBytes (byteAt c 1 - byteAt c 2) ≤ 16 := by
    unfold prefixBytes
    omega
  have hrest : prefixBytes (byteAt c 1 - byteAt c 2) ≤ (c.drop 3).length := by
    rw [List.length_drop, hlen]
    omega
  obtain ⟨src, hsrc⟩ : ∃ src : Bytes 16,
      src = padTo 16 (extractLoop (byteAt c 1 - byteAt c 2) (c.drop 3)) := ⟨_, rfl⟩
  have hbits : ∀ k, bitAt src.1 k =
      (bitAt (c.drop 3) k && decide (k < byteAt c 1 - byteAt c 2)) := by
    intro k
    rw [hsrc]
    exact bitAt_padTo hroom hrest k
  obtain ⟨got, hgot⟩ : ∃ got, got = flowspecGetAddr flow (byteAt c 0) true withOlen := ⟨_, rfl⟩
  have hval : got = ⟨1, some .inet6, shiftRight src.1 (byteAt c 2) (byteAt c 1 - byteAt c 2),
      byteAt c 1, if withOlen then byteAt c 2 else 0⟩ := by
    rw [hgot, flowspecGetAddr, flowspecGetComponent_of_mem h hc]
    simp only [byteAt_drop, List.drop_drop, List.length_drop, hlen, Nat.reduceAdd, Bool.not_true,
      Bool.false_eq_true, if_false]
    -- the offset is given, or the caller has asked for one
    have hnull : ¬(byteAt c 2 ≠ 0 ∧ (!withOlen) = true) := by
      rintro ⟨hne, hno⟩
      rcases holen with rfl | hzero
      · cases hno
      · exact hne hzero
    rw [if_neg (not_not.mpr rfl), if_neg hnull, if_neg (by omega), hsrc]
  rw [← hgot]
  -- a bit is set by the pattern, or it is zero
  refine ⟨⟨by rw [hval], by rw [hval]; rfl, by rw [hval], fun i hi => ?_⟩, ?_⟩
  · have hstores : got.stores = shiftRight src.1 (byteAt c 2) (byteAt c 1 - byteAt c 2) := by
      rw [hval]
    have hzero : ∀ k, byteAt c 1 - byteAt c 2 ≤ k → bitAt src.1 k = false := by
      intro k hk
      rw [hbits, decide_eq_false (Nat.not_lt.mpr hk), Bool.and_false]
    show bitAt (got.bytes 16) i = _
    rw [bitAt_shiftRight src.2 hroom hzero hstores hi, hbits, hpoff]
    show (decide (byteAt c 2 ≤ i) && (bitAt (c.drop 3) (i - byteAt c 2) && _)) =
      (_ && bitAt (c.drop 3) (i - byteAt c 2))
    by_cases hin : byteAt c 2 ≤ i ∧ i < byteAt c 1
    · rw [decide_eq_true hin, decide_eq_true hin.1, decide_eq_true (by omega)]
      simp
    · rw [decide_eq_false hin, Bool.false_and]
      by_cases hbefore : byteAt c 2 ≤ i
      · rw [decide_eq_false (p := i - byteAt c 2 < byteAt c 1 - byteAt c 2) (by omega)]
        simp
      · rw [decide_eq_false hbefore, Bool.false_and]
  · unfold GotAddr.Within
    rw [hval]
    exact shiftRight_within src.2 hroom

/-! ## Exactness -/

/-- The search for a type is exact: it finds the component if there is one, and says so if there is
    none. -/
structure Found (isV6 : Bool) (flow : List UInt8) (type : ℕ) : Prop where
  present : (flowspecGetComponent flow type isV6).1 = 1 ↔ ∃ c ∈ flowKey isV6 flow, byteAt c 0 = type
  absent : (flowspecGetComponent flow type isV6).1 = 0 ↔ ¬∃ c ∈ flowKey isV6 flow, byteAt c 0 = type
  bytes : ∀ c ∈ flowKey isV6 flow, byteAt c 0 = type →
    (flowspecGetComponent flow type isV6).2 = c.drop 1

/-- The address of a destination or source is right and nothing else is written. Without `olen`
    there are no addresses with an offset. -/
def AddrExact (isV6 : Bool) (flow : List UInt8) (type : ℕ) : Prop :=
  ∀ c ∈ flowKey isV6 flow, byteAt c 0 = type → isPrefixType type = true →
    ∀ withOlen, withOlen = true ∨ patternOff isV6 c = 0 →
      Filled isV6 c (flowspecGetAddr flow type isV6 withOlen) ∧
        (flowspecGetAddr flow type isV6 withOlen).Within (patternMax isV6)

/-- The search for a type is exact if some component is of that type or above. -/
theorem found_iff (h : flowspecValid flow isV6 = true) (type : ℕ) :
    Found isV6 flow type ↔ ∃ c ∈ flowKey isV6 flow, type ≤ byteAt c 0 := by
  by_cases hpresent : ∃ c ∈ flowKey isV6 flow, byteAt c 0 = type
  · obtain ⟨c, hc, rfl⟩ := hpresent
    have hget := flowspecGetComponent_of_mem h hc
    refine iff_of_true ⟨?_, ?_, ?_⟩ ⟨c, hc, le_refl _⟩
    · rw [hget]
      exact iff_of_true rfl ⟨c, hc, rfl⟩
    · rw [hget]
      exact iff_of_false Int.one_ne_zero (not_not.mpr ⟨c, hc, rfl⟩)
    · intro d hd heq
      rw [← heq, flowspecGetComponent_of_mem h hd]
  · have habsent : ∀ c ∈ flowKey isV6 flow, byteAt c 0 ≠ type := fun c hc heq =>
      hpresent ⟨c, hc, heq⟩
    have hget := flowspecGetComponent_of_absent h habsent
    constructor
    · intro hfound
      by_contra hno
      rw [if_neg hno] at hget
      have hzero := hfound.absent.mpr hpresent
      rw [hget] at hzero
      exact absurd hzero (by decide)
    · intro hle
      rw [if_pos hle] at hget
      refine ⟨?_, ?_, fun c hc heq => absurd heq (habsent c hc)⟩
      · rw [hget]
        exact iff_of_false Int.zero_ne_one hpresent
      · rw [hget]
        exact iff_of_true rfl hpresent

/-- The store of `shift_right` behind its loop is within the address. -/
def StoreFits (isV6 : Bool) (c : List UInt8) : Prop :=
  isV6 = true → byteAt c 2 / 8 + prefixBytes (byteAt c 1 - byteAt c 2) < 16

theorem addrExact_iff (h : flowspecValid flow isV6 = true) (type : ℕ) :
    AddrExact isV6 flow type ↔
      ∀ c ∈ flowKey isV6 flow, byteAt c 0 = type → isPrefixType type = true → StoreFits isV6 c := by
  unfold AddrExact StoreFits
  cases isV6 with
  | false =>
    refine iff_of_true ?_ fun c _ _ _ hno => nomatch hno
    rintro c hc rfl hpre withOlen -
    exact filled_inet h hc hpre
  | true =>
    constructor
    · rintro hexact c hc rfl hpre -
      exact (filled_inet6 h hc hpre (.inl rfl)).2.mp (hexact c hc rfl hpre true (.inl rfl)).2
    · rintro hfits c hc rfl hpre withOlen holen
      obtain ⟨hfilled, hwithin⟩ := filled_inet6 h hc hpre holen
      exact ⟨hfilled, hwithin.mpr (hfits c hc rfl hpre rfl)⟩

/-- Components are found and extracted exactly, as long as the search does not run off the end of
    the components and the last store stays within the address. -/
theorem component_exact_iff (h : flowspecValid flow isV6 = true) (type : ℕ) :
    Found isV6 flow type ∧ AddrExact isV6 flow type ↔
      (∃ c ∈ flowKey isV6 flow, type ≤ byteAt c 0) ∧
        ∀ c ∈ flowKey isV6 flow, byteAt c 0 = type → isPrefixType type = true →
          StoreFits isV6 c := by
  rw [found_iff h, addrExact_iff h]

/-- The destination `2001:db8::/32`. -/
theorem component_exact_iff_sample :
    (Found true [1, 32, 0, 0x20, 0x01, 0x0d, 0xb8] 1 ∧
      AddrExact true [1, 32, 0, 0x20, 0x01, 0x0d, 0xb8] 1) ↔
      (∃ c ∈ flowKey true [1, 32, 0, 0x20, 0x01, 0x0d, 0xb8], 1 ≤ byteAt c 0) ∧
        ∀ c ∈ flowKey true [1, 32, 0, 0x20, 0x01, 0x0d, 0xb8], byteAt c 0 = 1 →
          isPrefixType 1 = true → StoreFits true c :=
  component_exact_iff (by decide) 1

/-- The search for the source in an NLRI with a destination only fails, as if the NLRI were
    malformed; and the address of a destination of 128 bits is followed by one more byte. -/
theorem component_not_exact :
    (flowspecValid [1, 24, 192, 168, 16] false = true ∧ ¬Found false [1, 24, 192, 168, 16] 2) ∧
      flowspecValid (1 :: 128 :: 0 :: List.replicate 16 0xff) true = true ∧
        ¬AddrExact true (1 :: 128 :: 0 :: List.replicate 16 0xff) 1 := by
  have hvalid : flowspecValid (1 :: 128 :: 0 :: List.replicate 16 0xff) true = true := by decide
  refine ⟨⟨by decide, fun hfound => ?_⟩, hvalid, fun hexact => ?_⟩
  · have hzero := hfound.absent.mpr (by decide)
    exact absurd hzero (by decide)
  · have hfits := (addrExact_iff hvalid 1).mp hexact (1 :: 128 :: 0 :: List.replicate 16 0xff)
      (by decide) rfl rfl rfl
    exact absurd hfits (by decide)

end Bgpd.Rde.Nlri
