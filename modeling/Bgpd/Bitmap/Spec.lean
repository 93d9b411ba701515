import Bgpd.Bitmap.Map
import Bgpd.Lib.Ends
import Mathlib.Data.Finset.Basic
import Mathlib.Tactic

/-!
# What the Functions of `bitmap.c` Do

A map has words, wherever they are, and the words are a set of ids. Every function keeps this, reads
and writes only what belongs to the map, and leaves all other blocks of the heap alone.

## Main results

- `Words.read`, `Words.write`: accesses to the words
- `Moved`: what a function does to the heap
- `bitmapSet_ends` and the like: the functions, for the set of a map
-/

namespace Bgpd.Bitmap

open Bgpd.Lib

variable {h h' h'' : Heap} {map map' map'' : Bitmap} {ws : List (BitVec 64)} {s : Finset ℕ}
  {a w : BitVec 64} {mem : Option (BitVec 64)} {i j k bid n : ℕ}

/-! ## The mark of an address -/

theorem getLsbD_mark (j : ℕ) : (1 : BitVec 64).getLsbD j = decide (j = 0) := by
  have hone : (1 : BitVec 64) = 1#64 := rfl
  rw [hone, BitVec.getLsbD_one]
  simp

theorem getLsbD_notMark (a : BitVec 64) (j : ℕ) :
    (a &&& ~~~1).getLsbD j = (a.getLsbD j && decide (j ≠ 0)) := by
  rw [BitVec.getLsbD_and, BitVec.getLsbD_not, getLsbD_mark]
  rcases Nat.lt_or_ge j 64 with hlt | hge
  · simp [hlt]
  · rw [BitVec.getLsbD_of_ge _ _ hge, Bool.false_and, Bool.false_and]

theorem and_one_eq_zero_iff : a &&& 1 = 0 ↔ a.getLsbD 0 = false := by
  constructor
  · intro hzero
    have hbit : (a &&& 1).getLsbD 0 = false := by
      rw [hzero]
      exact BitVec.getLsbD_zero
    simpa only [BitVec.getLsbD_and, getLsbD_mark, decide_true, Bool.and_true] using hbit
  · intro hbit
    apply BitVec.eq_of_getLsbD_eq
    intro i _
    rw [BitVec.getLsbD_and, getLsbD_mark]
    rcases Nat.eq_zero_or_pos i with rfl | hpos
    · rw [hbit]
      rfl
    · rw [decide_eq_false hpos.ne', Bool.and_false]
      exact BitVec.getLsbD_zero.symm

theorem marked : (a ||| 1) &&& 1 ≠ 0 := by
  rw [ne_eq, and_one_eq_zero_iff, BitVec.getLsbD_or, getLsbD_mark]
  simp

theorem getptr_setptr (heven : a.getLsbD 0 = false) : (a ||| 1) &&& ~~~1 = a := by
  apply BitVec.eq_of_getLsbD_eq
  intro i _
  rw [getLsbD_notMark, BitVec.getLsbD_or, getLsbD_mark]
  rcases Nat.eq_zero_or_pos i with rfl | hpos
  · rw [heven]
    rfl
  · simp [hpos.ne']

/-! ## The words of a map -/

/-- The words are in the map itself or in its block. -/
inductive Words (h : Heap) : Bitmap → List (BitVec 64) → Prop
  | inline (d e : BitVec 64) (heven : d.getLsbD 0 = false) : Words h ⟨d, e⟩ [d, e]
  | block (a : BitVec 64) (ws : List (BitVec 64)) (heven : a.getLsbD 0 = false)
      (hblock : h.blocks a = some ws) (hpos : 0 < ws.length) (hmax : ws.length ≤ 2 ^ 26) :
      Words h ⟨a ||| 1, BitVec.ofNat 64 ws.length⟩ ws

/-- The address of the block. -/
def own (map : Bitmap) : Option (BitVec 64) :=
  if map.data0 &&& 1 = 0 then none else some (map.data0 &&& ~~~1)

theorem own_inline {d e : BitVec 64} (heven : d.getLsbD 0 = false) :
    own (Bitmap.mk d e) = none := if_pos (and_one_eq_zero_iff.2 heven)

theorem own_block {e : BitVec 64} (heven : a.getLsbD 0 = false) :
    own (Bitmap.mk (a ||| 1) e) = some a := by
  rw [own, if_neg marked]
  exact congrArg some (getptr_setptr heven)

theorem getset_inline {d e : BitVec 64} (heven : d.getLsbD 0 = false) :
    bitmapGetset ⟨d, e⟩ = (.inline, 2) := if_pos (and_one_eq_zero_iff.2 heven)

theorem getset_block (heven : a.getLsbD 0 = false) (hmax : n ≤ 2 ^ 26) :
    bitmapGetset ⟨a ||| 1, BitVec.ofNat 64 n⟩ = (.block a, n) := by
  rw [bitmapGetset, if_neg marked]
  refine Prod.ext (congrArg Ptr.block (getptr_setptr heven)) ?_
  dsimp only
  rw [BitVec.toNat_ofNat, Nat.mod_eq_of_lt (show n < 2 ^ 64 by omega), Nat.mod_eq_of_lt (by omega)]

theorem Words.max (hw : Words h map ws) : (bitmapGetset map).2 = ws.length := by
  cases hw with
  | inline d e heven => rw [getset_inline heven]; rfl
  | block a ws heven _ _ hmax => rw [getset_block heven hmax]

theorem Words.pos (hw : Words h map ws) : 0 < ws.length := by
  cases hw with
  | inline => exact Nat.two_pos
  | block _ _ _ _ hpos _ => exact hpos

theorem Words.le (hw : Words h map ws) : ws.length ≤ 2 ^ 26 := by
  cases hw with
  | inline => exact Nat.le_of_ble_eq_true rfl
  | block _ _ _ _ _ hmax => exact hmax

/-- The block of a map exists. -/
theorem Words.own_ne_none (hw : Words h map ws) (hown : own map = some a) :
    h.blocks a = some ws := by
  cases hw with
  | inline d e heven =>
    rw [own_inline heven] at hown
    cases hown
  | block b ws heven hblock _ _ =>
    rw [own_block heven, Option.some.injEq] at hown
    rw [← hown]
    exact hblock

theorem Words.read (hw : Words h map ws) (hi : i < ws.length) :
    readAt h map (bitmapGetset map).1 i = .ok ws[i] := by
  cases hw with
  | inline d e heven =>
    rw [getset_inline heven]
    have hi2 : i < 2 := hi
    interval_cases i
    · rfl
    · rfl
  | block a ws heven hblock _ hmax =>
    rw [getset_block heven hmax]
    simp [readAt, hblock, hi]

/-! ## What a function does to the heap -/

/-- The memory of a map that is not its own. -/
def bytes (map : Bitmap) : BitVec 64 := if own map = none then 0 else map.data1 * 8

/-- The number of blocks of a map. -/
def held (map : Bitmap) : BitVec 64 := if own map = none then 0 else 1

/-- The map and the heap change, but nothing of the heap that is not the map's. -/
structure Moved (h : Heap) (map : Bitmap) (h' : Heap) (map' : Bitmap) : Prop where
  others : ∀ a, h.blocks a ≠ none → own map ≠ some a → h'.blocks a = h.blocks a
  live : ∀ a, h'.blocks a ≠ none ↔ own map' = some a ∨ h.blocks a ≠ none ∧ own map ≠ some a
  fresh : ∀ a, own map' = some a → own map = some a ∨ h.blocks a = none
  size : h'.bitmapSize + bytes map = h.bitmapSize + bytes map'
  cnt : h'.bitmapCnt + held map = h.bitmapCnt + held map'

theorem Words.moved (hw : Words h map ws) : Moved h map h map := by
  refine ⟨fun _ _ _ => rfl, fun a => ?_, fun a hown => .inl hown, rfl, rfl⟩
  by_cases hown : own map = some a
  · exact iff_of_true (by rw [hw.own_ne_none hown]; exact Option.some_ne_none ws) (.inl hown)
  · simp [hown]

/-- Two moves of one map make a move: other live blocks are kept throughout. -/
theorem Moved.trans (hm : Moved h map h' map') (hm' : Moved h' map' h'' map'') :
    Moved h map h'' map'' := by
  have hkept : ∀ a, h.blocks a ≠ none → own map ≠ some a → own map' ≠ some a := by
    intro a hlive hown hown'
    rcases hm.fresh a hown' with hsame | hnone
    · exact hown hsame
    · exact hlive hnone
  refine ⟨fun a hlive hown => ?_, fun a => ?_, fun a hown => ?_, ?_, ?_⟩
  · have hsame := hm.others a hlive hown
    rw [← hsame]
    exact hm'.others a (by rwa [hsame]) (hkept a hlive hown)
  · rw [hm'.live, hm.live]
    constructor
    · rintro (hown | ⟨hown | hother, hne⟩)
      · exact .inl hown
      · exact absurd hown hne
      · exact .inr hother
    · rintro (hown | ⟨hlive, hne⟩)
      · exact .inl hown
      · exact .inr ⟨.inr ⟨hlive, hne⟩, hkept a hlive hne⟩
  · rcases hm'.fresh a hown with hown' | hnone
    · exact hm.fresh a hown'
    · by_cases hsame : own map = some a
      · exact .inl hsame
      · right
        by_contra hlive
        exact (hm.live a).2 (.inr ⟨hlive, hsame⟩) hnone
  · linear_combination hm'.size + hm.size
  · linear_combination hm'.cnt + hm.cnt

/-- Writing word `i` in range sets it in the read-back words and touches nothing else. -/
theorem Words.write (hw : Words h map ws) (hi : i < ws.length)
    (hmark : i = 0 → w.getLsbD 0 = false) :
    Ends (writeAt h map (bitmapGetset map).1 i w) fun r =>
      Words r.1 r.2 (ws.set i w) ∧ Moved h map r.1 r.2 ∧ own r.2 = own map := by
  cases hw with
  -- two words in the map itself, the first of them with the marker
  | inline d e heven =>
    rw [getset_inline heven]
    have hi2 : i < 2 := hi
    have hinline : ∀ d' e' : BitVec 64, d'.getLsbD 0 = false → Moved h ⟨d, e⟩ h ⟨d', e'⟩ := by
      intro d' e' heven'
      have hown := own_inline (e := e) heven
      have hown' := own_inline (e := e') heven'
      refine ⟨fun _ _ _ => rfl, fun a => ?_, fun a h' => ?_, ?_, ?_⟩
      · simp [hown, hown']
      · rw [hown'] at h'
        cases h'
      · rw [bytes, bytes, if_pos hown, if_pos hown']
      · rw [held, held, if_pos hown, if_pos hown']
    interval_cases i
    · have heven' := hmark rfl
      exact ⟨_, rfl, .inline w e heven', hinline w e heven',
        (own_inline heven').trans (own_inline heven).symm⟩
    · exact ⟨_, rfl, .inline d w heven, hinline d w heven,
        (own_inline heven).trans (own_inline heven).symm⟩
  -- a block of words
  | block a ws heven hblock hpos hmax =>
    rw [getset_block heven hmax]
    have hown := own_block (e := BitVec.ofNat 64 ws.length) heven
    have hlen : (ws.set i w).length = ws.length := List.length_set
    have hwrite : writeAt h ⟨a ||| 1, BitVec.ofNat 64 ws.length⟩ (.block a) i w =
        .ok ({ h with blocks := Function.update h.blocks a (some (ws.set i w)) },
          ⟨a ||| 1, BitVec.ofNat 64 ws.length⟩) := by
      simp only [writeAt, hblock, if_pos hi]
    refine ⟨_, hwrite, ?_, ?_, rfl⟩
    · have hwords := Words.block (h := { h with
        blocks := Function.update h.blocks a (some (ws.set i w)) }) a (ws.set i w) heven
        (Function.update_self ..) (by rwa [hlen]) (by rwa [hlen])
      rwa [hlen] at hwords
    · refine ⟨fun b _ hne => ?_, fun b => ?_, fun b hb => .inl hb, rfl, rfl⟩
      · rw [hown, ne_eq, Option.some.injEq] at hne
        exact Function.update_of_ne (Ne.symm hne) _ _
      · dsimp only
        rw [hown, Function.update_apply, Option.some.injEq]
        split_ifs with hab
        · exact iff_of_true (Option.some_ne_none _) (.inl hab.symm)
        · simp [Ne.symm hab]

/-! ## Bits -/

/-- The bit of an id. -/
def bitOf (ws : List (BitVec 64)) (k : ℕ) : Bool :=
  (ws.getD (k / bitmapBits) 0).getLsbD (k % bitmapBits)

theorem bitOf_of_le (hk : ws.length * bitmapBits ≤ k) : bitOf ws k = false := by
  have hdiv : ws.length ≤ k / bitmapBits := (Nat.le_div_iff_mul_le (by decide)).2 hk
  rw [bitOf, List.getD_eq_getElem?_getD, List.getElem?_eq_none hdiv]
  exact BitVec.getLsbD_zero

theorem bitOf_set (hi : i < ws.length) (w : BitVec 64) (k : ℕ) :
    bitOf (ws.set i w) k = if k / bitmapBits = i then w.getLsbD (k % bitmapBits)
      else bitOf ws k := by
  split_ifs with heq
  · subst heq
    rw [bitOf, List.getD_eq_getElem?_getD, List.getElem?_set_self hi]
    rfl
  · simp only [bitOf, List.getD_eq_getElem?_getD, List.getElem?_set_ne (Ne.symm heq)]

theorem bitOf_append_zeros (ws : List (BitVec 64)) (n k : ℕ) :
    bitOf (ws ++ List.replicate n 0) k = bitOf ws k := by
  simp only [bitOf, List.getD_eq_getElem?_getD]
  rcases Nat.lt_or_ge (k / bitmapBits) ws.length with hlt | hge
  · rw [List.getElem?_append_left hlt]
  · rw [List.getElem?_append_right hge, List.getElem?_eq_none hge, List.getElem?_replicate]
    split_ifs <;> rfl

theorem getLsbD_bitMask (bid j : ℕ) :
    (bitMask bid).getLsbD j = decide (j = bid % bitmapBits) := by
  have hlt : bid % bitmapBits < 64 := Nat.mod_lt _ (by decide)
  have hpow : bitMask bid = BitVec.twoPow 64 (bid % bitmapBits) := rfl
  rw [hpow, BitVec.getLsbD_twoPow]
  simp [hlt, eq_comm]

theorem and_bitMask (w : BitVec 64) (bid : ℕ) :
    (w &&& bitMask bid != 0) = w.getLsbD (bid % bitmapBits) := by
  have hlt : bid % bitmapBits < 64 := Nat.mod_lt _ (by decide)
  cases hbit : w.getLsbD (bid % bitmapBits) with
  | false =>
    have hzero : w &&& bitMask bid = 0 := by
      apply BitVec.eq_of_getLsbD_eq
      intro i _
      rw [BitVec.getLsbD_and, getLsbD_bitMask]
      refine Eq.trans ?_ BitVec.getLsbD_zero.symm
      by_cases hi : i = bid % bitmapBits
      · rw [hi, hbit, Bool.false_and]
      · rw [decide_eq_false hi, Bool.and_false]
    rw [hzero]
    rfl
  | true =>
    rw [bne_iff_ne]
    intro hzero
    have h := congrArg (fun x => BitVec.getLsbD x (bid % bitmapBits)) hzero
    simp [getLsbD_bitMask, hbit] at h

theorem eq_of_div_mod (hdiv : j / bitmapBits = k / bitmapBits)
    (hmod : j % bitmapBits = k % bitmapBits) : j = k := by
  rw [← Nat.div_add_mod j bitmapBits, ← Nat.div_add_mod k bitmapBits, hdiv, hmod]

theorem getLsbD_skipMarker (elm : ℕ) (m : BitVec 64) (j : ℕ) :
    (skipMarker elm m).getLsbD j = (m.getLsbD j && decide (elm ≠ 0 ∨ j ≠ 0)) := by
  rw [skipMarker]
  split_ifs with h0
  · rw [getLsbD_notMark]
    simp [h0]
  · simp [h0]

/-- `ffsll` finds the lowest bit. -/
theorem ffsll_spec {m : BitVec 64} (hm : m ≠ 0) :
    ∃ i < 64, ffsll m = i + 1 ∧ m.getLsbD i = true ∧ ∀ j < i, m.getLsbD j = false := by
  have hex : ∃ i ∈ List.range 64, m.getLsbD i = true := by
    by_contra hnone
    push Not at hnone
    apply hm
    apply BitVec.eq_of_getLsbD_eq
    intro i hi
    refine Eq.trans ?_ BitVec.getLsbD_zero.symm
    simpa using hnone i (List.mem_range.2 hi)
  have hlt := List.findIdx_lt_length.2 hex
  refine ⟨_, by simpa using hlt, if_neg hm, ?_, fun j hj => ?_⟩
  · have hfound := List.findIdx_getElem (w := hlt)
    rwa [List.getElem_range] at hfound
  · have hnot := List.not_of_lt_findIdx hj
    simpa using hnot

/-! ## The set of a map -/

/-- The ids of a map. -/
def Holds (h : Heap) (map : Bitmap) (s : Finset ℕ) : Prop :=
  ∃ ws, Words h map ws ∧ bitOf ws 0 = false ∧ ∀ k, k ∈ s ↔ bitOf ws k = true

/-- Memory that `reallocarray` may return. -/
def FreshAddr (h : Heap) (mem : Option (BitVec 64)) : Prop :=
  ∀ a, mem = some a → a.getLsbD 0 = false ∧ h.blocks a = none

/-- The number of ids that fit into a map. -/
def capacity (map : Bitmap) : ℕ := (bitmapGetset map).2 * bitmapBits

theorem le_div_iff (m k : ℕ) : m ≤ k / bitmapBits ↔ m * bitmapBits ≤ k :=
  Nat.le_div_iff_mul_le (by decide)

theorem Words.capacity_le (hw : Words h map ws) : capacity map ≤ 2 ^ 32 := by
  rw [capacity, hw.max]
  exact Nat.mul_le_mul_right bitmapBits hw.le

theorem Words.bitOf_of_le (hw : Words h map ws) (hk : capacity map ≤ k) : bitOf ws k = false := by
  apply Bitmap.bitOf_of_le
  rwa [capacity, hw.max] at hk

theorem Holds.zero (hs : Holds h map s) : 0 ∉ s := by
  obtain ⟨ws, _, hzero, hmem⟩ := hs
  rw [hmem, hzero]
  exact Bool.false_ne_true

theorem Holds.lt (hs : Holds h map s) (hk : k ∈ s) : k < capacity map := by
  obtain ⟨ws, hw, _, hmem⟩ := hs
  by_contra hge
  rw [hmem, hw.bitOf_of_le (by omega)] at hk
  cases hk

theorem Holds.moved (hs : Holds h map s) : Moved h map h map := by
  obtain ⟨ws, hw, _, _⟩ := hs
  exact hw.moved

/-- Another map is not concerned. -/
theorem Words.others (hw : Words h map ws)
    (hkept : ∀ a, own map = some a → h'.blocks a = h.blocks a) :
    Words h' map ws := by
  cases hw with
  | inline d e heven => exact .inline d e heven
  | block a ws heven hblock hpos hmax =>
    refine .block a ws heven ?_ hpos hmax
    rw [hkept a (own_block heven), hblock]

theorem Holds.others (hs : Holds h map s)
    (hkept : ∀ a, own map = some a → h'.blocks a = h.blocks a) :
    Holds h' map s := by
  obtain ⟨ws, hw, hzero, hmem⟩ := hs
  exact ⟨ws, hw.others hkept, hzero, hmem⟩

theorem holds_init (h : Heap) : Holds h bitmapInit ∅ := by
  refine ⟨[0, 0], .inline 0 0 BitVec.getLsbD_zero, rfl, fun k => ?_⟩
  have hbit : bitOf [0, 0] k = false := by
    rw [bitOf, List.getD_eq_getElem?_getD]
    rcases hdiv : k / bitmapBits with _ | _ | n <;> exact BitVec.getLsbD_zero
  rw [hbit]
  exact iff_of_false (Finset.notMem_empty k) Bool.false_ne_true

/-! ## Tests -/

/-- `bitmap_test` -/
theorem bitmapTest_eq (hs : Holds h map s) (bid : ℕ) :
    bitmapTest h map bid = .ok (decide (bid ∈ s)) := by
  rw [bitmapTest]
  split_ifs with hout
  · have hnot : bid ∉ s := by
      rcases hout with hge | rfl
      · intro hin
        have hlt := hs.lt hin
        rw [le_div_iff] at hge
        exact absurd hlt (Nat.not_lt.2 hge)
      · exact hs.zero
    rw [decide_eq_false hnot]
  · obtain ⟨ws, hw, _, hmem⟩ := hs
    rw [not_or, Nat.not_le, hw.max] at hout
    rw [hw.read hout.1]
    have hbit : (ws[bid / bitmapBits] &&& bitMask bid != 0) = bitOf ws bid := by
      rw [and_bitMask, bitOf, List.getD_eq_getElem?_getD, List.getElem?_eq_getElem hout.1]
      rfl
    have hdec : bitOf ws bid = decide (bid ∈ s) := by
      rw [Bool.eq_iff_iff, decide_eq_true_iff, hmem]
    exact congrArg Except.ok (hbit.trans hdec)

/-- The bits of word `elm`, without the marker, are the ids from `elm * 64` on. -/
theorem bitOf_word (hi : i < ws.length) (hj : j < bitmapBits) :
    bitOf ws (i * bitmapBits + j) = ws[i].getLsbD j := by
  have hdiv : (i * bitmapBits + j) / bitmapBits = i := by
    rw [Nat.mul_comm, Nat.mul_add_div (by decide), Nat.div_eq_of_lt hj, Nat.add_zero]
  have hmod : (i * bitmapBits + j) % bitmapBits = j := by
    rw [Nat.mul_add_mod_self_right, Nat.mod_eq_of_lt hj]
  rw [bitOf, hdiv, hmod, List.getD_eq_getElem?_getD, List.getElem?_eq_getElem hi]
  rfl

theorem exists_bit {m : BitVec 64} (hm : m ≠ 0) : ∃ j < bitmapBits, m.getLsbD j = true := by
  obtain ⟨j, hj, _, hbit, _⟩ := ffsll_spec hm
  exact ⟨j, hj, hbit⟩

/-- From word `elm` on, the loop answers whether no bit is set there. -/
theorem emptyLoop_eq (hw : Words h map ws) (hzero : bitOf ws 0 = false) (fuel : ℕ) :
    ∀ elm, fuel + elm = ws.length →
      ∃ r, emptyLoop h map fuel elm = .ok r ∧
        (r = true ↔ ∀ k, elm * bitmapBits ≤ k → bitOf ws k = false) := by
  induction fuel with
  | zero =>
    intro elm hlen
    refine ⟨true, rfl, iff_of_true rfl fun k hk => ?_⟩
    apply Bitmap.bitOf_of_le
    rwa [← hlen, Nat.zero_add]
  | succ fuel ih =>
    intro elm hlen
    have hlt : elm < ws.length := by omega
    -- the marker counts as no id
    have hskip : ∀ j < bitmapBits,
        (skipMarker elm ws[elm]).getLsbD j = bitOf ws (elm * bitmapBits + j) := by
      intro j hj
      rw [getLsbD_skipMarker, ← bitOf_word hlt hj]
      by_cases hmark : elm ≠ 0 ∨ j ≠ 0
      · simp [hmark]
      · obtain ⟨rfl, rfl⟩ : elm = 0 ∧ j = 0 := by omega
        rw [Nat.zero_mul, Nat.zero_add, hzero]
        rfl
    rw [emptyLoop, hw.read hlt]
    dsimp only [bind, Except.bind]
    split_ifs with hne
    -- a word with a bit set ends the loop
    · obtain ⟨j, hj, hbit⟩ := exists_bit hne
      refine ⟨false, rfl, iff_of_false Bool.false_ne_true fun hall => ?_⟩
      rw [hskip j hj, hall _ (Nat.le_add_right _ _)] at hbit
      cases hbit
    · obtain ⟨r, hr, hiff⟩ := ih (elm + 1) (by omega)
      refine ⟨r, hr, hiff.trans ⟨fun hall k hk => ?_, fun hall k hk => hall k ?_⟩⟩
      · -- the id is in this word or behind it
        rcases Nat.lt_or_ge k ((elm + 1) * bitmapBits) with hin | hge
        · obtain ⟨j, rfl⟩ := Nat.exists_eq_add_of_le hk
          have hj : j < bitmapBits := by
            rw [Nat.add_mul, Nat.one_mul] at hin
            omega
          rw [← hskip j hj, not_not.1 hne]
          exact BitVec.getLsbD_zero
        · exact hall k hge
      · exact le_trans (Nat.mul_le_mul_right _ (Nat.le_succ elm)) hk

/-- `bitmap_empty` -/
theorem bitmapEmpty_eq (hs : Holds h map s) : bitmapEmpty h map = .ok (decide (s = ∅)) := by
  obtain ⟨ws, hw, hzero, hmem⟩ := hs
  obtain ⟨r, hr, hiff⟩ := emptyLoop_eq hw hzero ws.length 0 (Nat.add_zero _)
  rw [bitmapEmpty, hw.max, hr]
  congr 1
  rw [Bool.eq_iff_iff, hiff, decide_eq_true_iff, Finset.eq_empty_iff_forall_notMem]
  refine forall_congr' fun k => ?_
  rw [hmem, Bool.not_eq_true]
  exact ⟨fun hall => hall (by omega), fun hall _ => hall⟩

/-! ## Changes in place -/

/-- A word of the map changes at the bit of an id. -/
theorem changeWord_ends (hw : Words h map ws) (hzero : bitOf ws 0 = false) (hbid : bid ≠ 0)
    (hlt : bid < capacity map) {f : BitVec 64 → BitVec 64} {b : Bool}
    (hf : ∀ w j, (f w).getLsbD j = if j = bid % bitmapBits then b else w.getLsbD j) :
    Ends (changeWord h map bid f) fun r => Moved h map r.1 r.2 ∧ own r.2 = own map ∧
      ∃ ws', Words r.1 r.2 ws' ∧ ∀ k, bitOf ws' k = if k = bid then b else bitOf ws k := by
  have hi : bid / bitmapBits < ws.length := by
    rw [← Nat.not_le, le_div_iff, ← hw.max]
    exact Nat.not_le.2 hlt
  have hbit : ∀ k, bitOf (ws.set (bid / bitmapBits) (f ws[bid / bitmapBits])) k =
      if k = bid then b else bitOf ws k := by
    intro k
    rw [bitOf_set hi]
    split_ifs with hword hkb hkb
    · rw [hf, if_pos (by rw [hkb])]
    · rw [hf, if_neg (fun hmod => hkb (eq_of_div_mod hword hmod)), bitOf,
        List.getD_eq_getElem?_getD, hword, List.getElem?_eq_getElem hi]
      rfl
    · exact absurd (by rw [hkb]) hword
    · rfl
  rw [changeWord, hw.read hi]
  refine (hw.write hi fun hword => ?_).mono fun r hr => ⟨hr.2.1, hr.2.2, _, hr.1, hbit⟩
  -- the first word has the marker, which is no id
  have hmark := hbit 0
  rw [if_neg (Ne.symm hbid), hzero, bitOf_set hi, Nat.zero_div, Nat.zero_mod, if_pos hword.symm]
    at hmark
  exact hmark

theorem getLsbD_set (w : BitVec 64) (bid j : ℕ) :
    (w ||| bitMask bid).getLsbD j = if j = bid % bitmapBits then true else w.getLsbD j := by
  rw [BitVec.getLsbD_or, getLsbD_bitMask]
  split_ifs with hj <;> simp [hj]

theorem getLsbD_clear (w : BitVec 64) (bid j : ℕ) :
    (w &&& ~~~bitMask bid).getLsbD j = if j = bid % bitmapBits then false else w.getLsbD j := by
  rw [BitVec.getLsbD_and, BitVec.getLsbD_not, getLsbD_bitMask]
  split_ifs with hj
  · simp [hj]
  · rcases Nat.lt_or_ge j 64 with hlt | hge
    · simp [hj, hlt]
    · simp [BitVec.getLsbD_of_ge _ _ hge]

/-- `bitmap_clear` -/
theorem bitmapClear_ends (hs : Holds h map s) (bid : ℕ) :
    Ends (bitmapClear h map bid) fun r =>
      Holds r.1 r.2 (s.erase bid) ∧ Moved h map r.1 r.2 ∧ own r.2 = own map := by
  rw [bitmapClear]
  refine Ends.ite (fun hout => ?_) fun hin => ?_
  · have hnot : bid ∉ s := by
      rcases hout with hge | rfl
      · intro hmem
        have hlt := hs.lt hmem
        rw [le_div_iff] at hge
        exact absurd hlt (Nat.not_lt.2 hge)
      · exact hs.zero
    rw [ends_ok_iff, Finset.erase_eq_of_notMem hnot]
    exact ⟨hs, hs.moved, rfl⟩
  · obtain ⟨ws, hw, hzero, hmem⟩ := hs
    rw [not_or, le_div_iff, Nat.not_le] at hin
    refine (changeWord_ends hw hzero hin.2 hin.1 fun w j => getLsbD_clear w bid j).mono fun r hr =>
      ?_
    obtain ⟨hmoved, hown, ws', hw', hbit⟩ := hr
    refine ⟨⟨ws', hw', ?_, fun k => ?_⟩, hmoved, hown⟩
    · rw [hbit, if_neg (Ne.symm hin.2), hzero]
    · rw [hbit, Finset.mem_erase, hmem]
      split_ifs with hk <;> simp [hk]

/-! ## Growth -/

theorem mapM_ok {ε α β : Type} {l : List α} {f : α → Except ε β} {g : α → β}
    (hf : ∀ x ∈ l, f x = .ok (g x)) : l.mapM f = .ok (l.map g) := by
  induction l with
  | nil => rfl
  | cons x rest ih =>
    rw [List.mapM_cons, hf x (List.mem_cons_self ..),
      ih fun y hy => hf y (List.mem_cons_of_mem x hy)]
    rfl

theorem copyWords_eq (hw : Words h map ws) (n : ℕ) :
    copyWords h map n = .ok (ws ++ List.replicate (n - ws.length) 0) := by
  have hread : ∀ i ∈ List.range ws.length,
      readAt h map (bitmapGetset map).1 i = .ok (ws.getD i 0) := by
    intro i hi
    rw [List.mem_range] at hi
    rw [hw.read hi, List.getD_eq_getElem?_getD, List.getElem?_eq_getElem hi]
    rfl
  have hmap : (List.range ws.length).map (fun i => ws.getD i 0) = ws := by
    apply List.ext_getElem (by simp)
    intro i hi _
    simp only [List.length_map, List.length_range] at hi
    simp [hi]
  rw [copyWords, hw.max, mapM_ok hread, hmap]
  rfl

/-- The words of a block with its address and length. -/
theorem words_block (heven : a.getLsbD 0 = false) (hblock : h.blocks a = some ws)
    (hlen : ws.length = n) (hpos : 0 < n) (hmax : n ≤ 2 ^ 26) :
    Words h ⟨a ||| 1, BitVec.ofNat 64 n⟩ ws := by
  subst hlen
  exact .block a ws heven hblock hpos hmax

theorem bytes_block {e : BitVec 64} (heven : a.getLsbD 0 = false) :
    bytes ⟨a ||| 1, e⟩ = e * 8 := by
  rw [bytes, if_neg]
  rw [own_block heven]
  exact Option.some_ne_none a

theorem held_block {e : BitVec 64} (heven : a.getLsbD 0 = false) : held ⟨a ||| 1, e⟩ = 1 := by
  rw [held, if_neg]
  rw [own_block heven]
  exact Option.some_ne_none a

theorem ofNat_mul_eight (n : ℕ) : BitVec.ofNat 64 (n * 8) = BitVec.ofNat 64 n * 8 := by
  rw [BitVec.ofNat_mul]
  rfl

/-- `bitmap_free`: what is left of the heap. -/
structure Freed (h : Heap) (map : Bitmap) (h' : Heap) : Prop where
  blocks : ∀ b, h'.blocks b = if own map = some b then none else h.blocks b
  size : h'.bitmapSize + bytes map = h.bitmapSize
  cnt : h'.bitmapCnt + held map = h.bitmapCnt

/-- Freeing releases the map's own block and no other. -/
theorem bitmapFree_ends (hw : Words h map ws) : Ends (bitmapFree h map) (Freed h map) := by
  cases hw with
  | inline d e heven =>
    have hown := own_inline (e := e) heven
    rw [bitmapFree, getset_inline heven]
    refine ⟨h, rfl, fun b => ?_, ?_, ?_⟩
    · rw [hown]
      rfl
    · rw [bytes, if_pos hown]
      exact add_zero _
    · rw [held, if_pos hown]
      exact add_zero _
  | block a ws heven hblock _ hmax =>
    have hsome : ¬ (h.blocks a).isNone = true := by simp [hblock]
    rw [bitmapFree, getset_block heven hmax]
    dsimp only
    rw [if_neg hsome]
    refine ⟨_, rfl, fun b => ?_, ?_, ?_⟩
    · dsimp only
      rw [Function.update_apply, own_block heven]
      simp only [Option.some.injEq, eq_comm]
    · rw [bytes_block heven, ofNat_mul_eight]
      exact sub_add_cancel _ _
    · rw [held_block heven]
      exact sub_add_cancel _ _

/-- The map moves to a new block. -/
theorem moveTo_ends (hw : Words h map ws) (heven : a.getLsbD 0 = false) (hfree : h.blocks a = none)
    (hlen : ws.length ≤ n) (hmax : n ≤ 2 ^ 26) :
    Ends (moveTo h map a n) fun r => Moved h map r.1 r.2 ∧
      Words r.1 r.2 (ws ++ List.replicate (n - ws.length) 0) ∧ capacity r.2 = n * bitmapBits := by
  -- the new block is not the one that is given up
  have hne : own map ≠ some a := by
    intro hown
    rw [hw.own_ne_none hown] at hfree
    cases hfree
  have hpos := hw.pos
  rw [moveTo, copyWords_eq hw]
  have hold : ∀ b, own map = some b →
      Function.update h.blocks a (some (ws ++ List.replicate (n - ws.length) 0)) b =
        h.blocks b := by
    intro b hown
    apply Function.update_of_ne
    rintro rfl
    exact hne hown
  have hw' : Words { h with
      blocks := Function.update h.blocks a (some (ws ++ List.replicate (n - ws.length) 0)) }
      map ws := hw.others hold
  refine (bitmapFree_ends hw').bind
    fun h₁ hfreed => ?_
  rw [ends_pure_iff]
  have hnew : h₁.blocks a = some (ws ++ List.replicate (n - ws.length) 0) := by
    rw [hfreed.blocks, if_neg hne]
    exact Function.update_self ..
  have hother : ∀ b, b ≠ a → own map ≠ some b → h₁.blocks b = h.blocks b := by
    intro b hba hown
    rw [hfreed.blocks, if_neg hown]
    exact Function.update_of_ne hba _ _
  have hsize := hfreed.size
  have hcnt := hfreed.cnt
  dsimp only at hsize hcnt
  refine ⟨⟨fun b hlive hown => ?_, fun b => ?_, fun b hown => ?_, ?_, ?_⟩, ?_, ?_⟩
  -- all other blocks stay
  · refine hother b ?_ hown
    rintro rfl
    exact hlive hfree
  -- the new block takes the place of the old one
  · rw [own_block heven, Option.some.injEq]
    by_cases hba : b = a
    · subst hba
      refine iff_of_true ?_ (.inl rfl)
      dsimp only
      rw [hnew]
      exact Option.some_ne_none _
    · by_cases hown : own map = some b
      · refine iff_of_false ?_ ?_
        · dsimp only
          rw [hfreed.blocks, if_pos hown]
          exact fun h => h rfl
        · rintro (hab | ⟨_, hnot⟩)
          · exact hba hab.symm
          · exact hnot hown
      · dsimp only
        rw [hother b hba hown]
        exact ⟨fun hlive => .inr ⟨hlive, hown⟩, fun hcase =>
          (hcase.resolve_left (Ne.symm hba)).1⟩
  · rw [own_block heven, Option.some.injEq] at hown
    exact .inr (hown ▸ hfree)
  -- the account counts the new block and not the old one
  · rw [bytes_block heven, ofNat_mul_eight]
    linear_combination hsize
  · rw [held_block heven]
    linear_combination hcnt
  · refine words_block heven hnew ?_ (by omega) hmax
    rw [List.length_append, List.length_replicate]
    omega
  · rw [capacity, getset_block heven hmax]

theorem bitOf_grown (hw : Words h map (ws ++ List.replicate n 0)) (hzero : bitOf ws 0 = false)
    (hmem : ∀ k, k ∈ s ↔ bitOf ws k = true) : Holds h map s := by
  refine ⟨_, hw, ?_, fun k => ?_⟩
  · rw [bitOf_append_zeros, hzero]
  · rw [bitOf_append_zeros, hmem]

theorem roundup_spec (hi : i < 2 ^ 26) :
    bitmapRoundup i bitmapAllocsize % 2 ^ 32 = bitmapRoundup i bitmapAllocsize ∧
      i < bitmapRoundup i bitmapAllocsize ∧ bitmapRoundup i bitmapAllocsize ≤ 2 ^ 26 := by
  rw [bitmapRoundup, bitmapAllocsize]
  omega

/-- `bitmap_resize` for an id that does not fit. -/
theorem bitmapResize_ends (hs : Holds h map s) (hmem : FreshAddr h mem) (hbid : bid < 2 ^ 32)
    (hout : capacity map ≤ bid) :
    Ends (bitmapResize mem h map (bid / bitmapBits)) fun r =>
      (r.2.2 = false → r.1 = h ∧ r.2.1 = map ∧ mem = none) ∧
      (r.2.2 = true → Holds r.1 r.2.1 s ∧ Moved h map r.1 r.2.1 ∧ bid < capacity r.2.1) := by
  obtain ⟨ws, hw, hzero, hset⟩ := hs
  have hi : bid / bitmapBits < 2 ^ 26 := Nat.div_lt_of_lt_mul hbid
  have hlen : ws.length ≤ bid / bitmapBits := by
    rwa [le_div_iff, ← hw.max]
  obtain ⟨hmod, hlt, hmax⟩ := roundup_spec hi
  cases mem with
  | none =>
    rw [bitmapResize, hmod, hw.max, if_neg (by omega), ends_ok_iff]
    exact ⟨fun _ => ⟨rfl, rfl, rfl⟩, fun hdone => Bool.noConfusion hdone⟩
  | some a =>
    obtain ⟨heven, hfree⟩ := hmem a rfl
    rw [bitmapResize, hmod, hw.max, if_neg (by omega)]
    refine (moveTo_ends hw heven hfree (by omega) hmax).bind fun r hr => ?_
    obtain ⟨hmoved, hwords, hcap⟩ := hr
    rw [ends_pure_iff]
    refine ⟨fun hdone => Bool.noConfusion hdone, fun _ =>
      ⟨bitOf_grown hwords hzero hset, hmoved, ?_⟩⟩
    rw [hcap, ← Nat.not_le, ← le_div_iff]
    omega

/-- What `bitmap_set` does. -/
structure SetOk (mem : Option (BitVec 64)) (h : Heap) (map : Bitmap) (s : Finset ℕ) (bid : ℕ)
    (r : Heap × Bitmap × Bool) : Prop where
  done : r.2.2 = true → bid ≠ 0 ∧ Holds r.1 r.2.1 (insert bid s) ∧ Moved h map r.1 r.2.1
  failed : r.2.2 = false →
    r.1 = h ∧ r.2.1 = map ∧ (bid = 0 ∨ mem = none ∧ capacity map ≤ bid)

theorem setBit_ends (hs : Holds h map s) (hbid : bid ≠ 0) (hlt : bid < capacity map) :
    Ends (changeWord h map bid fun w => w ||| bitMask bid) fun r =>
      Holds r.1 r.2 (insert bid s) ∧ Moved h map r.1 r.2 := by
  obtain ⟨ws, hw, hzero, hmem⟩ := hs
  refine (changeWord_ends hw hzero hbid hlt fun w j => getLsbD_set w bid j).mono fun r hr => ?_
  obtain ⟨hmoved, _, ws', hw', hbit⟩ := hr
  refine ⟨⟨ws', hw', ?_, fun k => ?_⟩, hmoved⟩
  · rw [hbit, if_neg (Ne.symm hbid), hzero]
  · rw [hbit, Finset.mem_insert, hmem]
    split_ifs with hk <;> simp [hk]

/-- `bitmap_set` -/
theorem bitmapSet_ends (hs : Holds h map s) (hmem : FreshAddr h mem) (hbid : bid < 2 ^ 32) :
    Ends (bitmapSet mem h map bid) (SetOk mem h map s bid) := by
  rw [bitmapSet]
  refine Ends.ite (fun hzero => ?_) fun hpos => ?_
  · rw [ends_ok_iff]
    exact ⟨fun hdone => Bool.noConfusion hdone, fun _ => ⟨rfl, rfl, .inl hzero⟩⟩
  · -- the map, after it was extended if needed
    have hgrown : Ends (extendFor mem h map bid) fun r =>
        (r.2.2 = false → r.1 = h ∧ r.2.1 = map ∧ mem = none ∧ capacity map ≤ bid) ∧
        (r.2.2 = true → Holds r.1 r.2.1 s ∧ Moved h map r.1 r.2.1 ∧ bid < capacity r.2.1) := by
      refine Ends.ite (fun hout => ?_) fun hin => ?_
      · rw [le_div_iff] at hout
        refine (bitmapResize_ends hs hmem hbid hout).mono fun r hr => ⟨fun hfail => ?_, hr.2⟩
        obtain ⟨h₁, h₂, h₃⟩ := hr.1 hfail
        exact ⟨h₁, h₂, h₃, hout⟩
      · rw [le_div_iff, Nat.not_le] at hin
        rw [ends_ok_iff]
        exact ⟨fun hfail => Bool.noConfusion hfail, fun _ => ⟨hs, hs.moved, hin⟩⟩
    refine hgrown.bind fun r hr => ?_
    obtain ⟨h₁, map₁, done⟩ := r
    refine Ends.ite (fun hdone => ?_) fun hnot => ?_
    · obtain ⟨hs₁, hmoved, hlt⟩ := hr.2 hdone
      refine (setBit_ends hs₁ hpos hlt).bind fun r hr₁ => ?_
      rw [ends_pure_iff]
      exact ⟨fun _ => ⟨hpos, hr₁.1, hmoved.trans hr₁.2⟩, fun hfail => Bool.noConfusion hfail⟩
    · obtain ⟨hh, hmap, hfull⟩ := hr.1 (Bool.eq_false_iff.2 hnot)
      rw [ends_pure_iff]
      exact ⟨fun hdone => Bool.noConfusion hdone, fun _ => ⟨hh, hmap, .inr hfull⟩⟩

/-! ## Free ids -/

/-- The least id that is not used. -/
structure Least (s : Finset ℕ) (b : ℕ) : Prop where
  pos : 0 < b
  free : b ∉ s
  least : ∀ k, 0 < k → k < b → k ∈ s

/-- With every bit before word `elm` taken, the loop finds the least free bit. -/
theorem freeLoop_eq (hw : Words h map ws) (hmem : ∀ k, k ∈ s ↔ bitOf ws k = true) (fuel : ℕ) :
    ∀ elm, fuel + elm = ws.length → (∀ k, 0 < k → k < elm * bitmapBits → k ∈ s) →
      ∃ b, freeLoop h map fuel elm = .ok (b % 2 ^ 32) ∧ b ≤ capacity map ∧ Least s b := by
  induction fuel with
  | zero =>
    intro elm hlen hfull
    rw [Nat.zero_add] at hlen
    subst hlen
    refine ⟨ws.length * bitmapBits, rfl, ?_, Nat.mul_pos hw.pos (by decide), ?_, hfull⟩
    · rw [capacity, hw.max]
    · rw [hmem, Bitmap.bitOf_of_le le_rfl]
      exact Bool.false_ne_true
  | succ fuel ih =>
    intro elm hlen hfull
    have hlt : elm < ws.length := by omega
    have hskip : ∀ j < bitmapBits, (skipMarker elm (~~~ws[elm])).getLsbD j =
        (!bitOf ws (elm * bitmapBits + j) && decide (elm ≠ 0 ∨ j ≠ 0)) := by
      intro j hj
      have hj64 : j < 64 := hj
      rw [getLsbD_skipMarker, ← bitOf_word hlt hj |>.symm, BitVec.getLsbD_not]
      simp [hj64]
    rw [freeLoop, hw.read hlt]
    dsimp only [bind, Except.bind]
    split_ifs with hnone
    -- a full word is passed
    · refine ih (elm + 1) (by omega) fun k hpos hk => ?_
      rcases Nat.lt_or_ge k (elm * bitmapBits) with hbefore | hge
      · exact hfull k hpos hbefore
      · -- all bits of this word are used
        obtain ⟨j, rfl⟩ := Nat.exists_eq_add_of_le hge
        have hj : j < bitmapBits := by
          rw [Nat.add_mul, Nat.one_mul] at hk
          omega
        have hbit := hskip j hj
        have hid : elm ≠ 0 ∨ j ≠ 0 := by
          by_contra hno
          obtain ⟨rfl, rfl⟩ : elm = 0 ∧ j = 0 := by omega
          exact absurd hpos (by simp)
        rw [hnone, decide_eq_true hid, Bool.and_true] at hbit
        rw [hmem]
        have hset : (!bitOf ws (elm * bitmapBits + j)) = false :=
          hbit.symm.trans BitVec.getLsbD_zero
        simpa using hset
    -- the first free bit of the word
    · obtain ⟨j, hj, hffs, hbit, hbelow⟩ := ffsll_spec hnone
      have hjb : j < bitmapBits := hj
      rw [hskip j hjb, Bool.and_eq_true, decide_eq_true_iff] at hbit
      refine ⟨elm * bitmapBits + j, ?_, ?_, ⟨?_, ?_, fun k hpos hk => ?_⟩⟩
      · rw [hffs]
        rfl
      · rw [capacity, hw.max]
        calc elm * bitmapBits + j ≤ elm * bitmapBits + bitmapBits := by omega
          _ = (elm + 1) * bitmapBits := (Nat.succ_mul _ _).symm
          _ ≤ ws.length * bitmapBits := Nat.mul_le_mul_right _ hlt
      · rcases hbit.2 with helm | hj0
        · have hmul : 0 < elm * bitmapBits := Nat.mul_pos (Nat.pos_of_ne_zero helm) (by decide)
          omega
        · omega
      · rw [hmem]
        simpa using hbit.1
      · rcases Nat.lt_or_ge k (elm * bitmapBits) with hbefore | hge
        · exact hfull k hpos hbefore
        · -- the bits below the one that was found are used
          obtain ⟨l, rfl⟩ := Nat.exists_eq_add_of_le hge
          have hl := hbelow l (by omega)
          have hid : elm ≠ 0 ∨ l ≠ 0 := by
            by_contra hno
            obtain ⟨rfl, rfl⟩ : elm = 0 ∧ l = 0 := by omega
            exact absurd hpos (by simp)
          rw [hskip l (by omega), decide_eq_true hid, Bool.and_true] at hl
          rw [hmem]
          simpa using hl

/-- What `bitmap_id_get` does. -/
structure IdOk (mem : Option (BitVec 64)) (h : Heap) (map : Bitmap) (s : Finset ℕ)
    (r : Heap × Bitmap × ℕ × Bool) : Prop where
  done : r.2.2.2 = true → r.2.2.1 < 2 ^ 32 ∧ Least s r.2.2.1 ∧
    Holds r.1 r.2.1 (insert r.2.2.1 s) ∧ Moved h map r.1 r.2.1
  failed : r.2.2.2 = false → r.1 = h ∧ r.2.1 = map ∧
    ((∀ k, 0 < k → k < 2 ^ 32 → k ∈ s) ∨ mem = none ∧ ∀ k, 0 < k → k < capacity map → k ∈ s)

/-- `bitmap_id_get` -/
theorem bitmapIdGet_ends (hs : Holds h map s) (hmem : FreshAddr h mem) :
    Ends (bitmapIdGet mem h map) (IdOk mem h map s) := by
  obtain ⟨ws, hw, hzero, hset⟩ := hs
  obtain ⟨b, hloop, hle, hleast⟩ := freeLoop_eq hw hset ws.length 0 (Nat.add_zero _)
    fun k _ hk => absurd hk (by simp)
  have hcap := hw.capacity_le
  have hs : Holds h map s := ⟨ws, hw, hzero, hset⟩
  rw [bitmapIdGet, hw.max, hloop]
  refine (bitmapSet_ends hs hmem (Nat.mod_lt b (by decide))).bind fun r hr => ?_
  obtain ⟨h₁, map₁, done⟩ := r
  rw [ends_pure_iff]
  rcases Nat.eq_or_lt_of_le (hle.trans hcap) with hall | hlt
  · -- every id is used
    subst hall
    refine ⟨fun hdone => absurd (Nat.mod_self _) (hr.done hdone).1, fun hfail => ?_⟩
    obtain ⟨hh, hmap, _⟩ := hr.failed hfail
    exact ⟨hh, hmap, .inl hleast.least⟩
  · rw [Nat.mod_eq_of_lt hlt] at hr ⊢
    refine ⟨fun hdone => ⟨hlt, hleast, (hr.done hdone).2⟩, fun hfail => ?_⟩
    obtain ⟨hh, hmap, hzero | ⟨hnone, hfull⟩⟩ := hr.failed hfail
    · exact absurd hzero hleast.pos.ne'
    · exact ⟨hh, hmap, .inr ⟨hnone, fun k hpos hk => hleast.least k hpos (hk.trans_le hfull)⟩⟩

/-- `bitmap_reset` -/
theorem bitmapReset_ends (hs : Holds h map s) :
    Ends (bitmapReset h map) fun r => Holds r.1 r.2 ∅ ∧ Moved h map r.1 r.2 ∧ r.2 = bitmapInit := by
  obtain ⟨ws, hw, _, _⟩ := hs
  have hown : own bitmapInit = none := own_inline BitVec.getLsbD_zero
  refine (bitmapFree_ends hw).bind fun h' hfreed => ?_
  rw [ends_pure_iff]
  refine ⟨holds_init h', ⟨fun b _ hne => ?_, fun b => ?_, fun b hb => ?_, ?_, ?_⟩, rfl⟩
  · dsimp only
    rw [hfreed.blocks, if_neg hne]
  · dsimp only
    rw [hown, hfreed.blocks]
    split_ifs with hb
    · simp [hb]
    · simp [hb]
  · rw [hown] at hb
    cases hb
  · rw [show bytes bitmapInit = 0 from if_pos hown, add_zero]
    exact hfreed.size
  · rw [show held bitmapInit = 0 from if_pos hown, add_zero]
    exact hfreed.cnt

end Bgpd.Bitmap
