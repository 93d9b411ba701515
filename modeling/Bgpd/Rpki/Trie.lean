import Mathlib.Data.List.Sort
import Bgpd.Lib.BitPrefix

/-!
# Prefix and Origin Sets

The functions of `rde_trie.c`, with the sets of source ASes of `rde_sets.c`. A trie is path
compressed: every node has an address and a length, and the bit at this length decides
between its two children. Branch nodes only exist for branching.

The functions for IPv4 and IPv6 are the same but for the width of an address and the search
for the first different bit, so that they are one definition over a `Family`. The function
that adds a node returns a pointer to it, through which the caller changes the data of the
node; here the change is an argument. Counters and allocation failures are left out.

## Layout

- `inet4findmsb`, `inet6findmsb`, `Family`
- `Trie`, `trieAddNode`, `trieMatchNode`
- `TrieHead`, `trieAdd`, `trieMatch`: prefix sets
- `SetTable`, `trieRoaAdd`, `trieRoaCheck`: ROA sets
-/

namespace Bgpd.Rpki

open Bgpd.Lib

/-! ## Addresses -/

/-- `inet4findmsb` -/
def inet4findmsb (a b : BitVec 32) : ℕ :=
  31 - (bisect 1 (bisect 2 (bisect 4 (bisect 8 (bisect 16 (0, (a ^^^ b).toNat)))))).1

/-- `s6_addr[i]` -/
def s6addr (a : BitVec 128) (i : ℕ) : ℕ := a.toNat / 2 ^ (8 * (15 - i)) % 256

/-- The loop of `inet6findmsb`: the first octet from `i` on that is different, out of `fuel`
    octets. -/
def inet6diff (a b : BitVec 128) : ℕ → ℕ → ℕ
  | 0, i => i
  | fuel + 1, i => if s6addr a i = s6addr b i then inet6diff a b fuel (i + 1) else i

/-- `inet6findmsb` -/
def inet6findmsb (a b : BitVec 128) : ℕ :=
  let i := inet6diff a b 16 0
  i * 8 + 7 - (bisect 1 (bisect 2 (bisect 4 (0, s6addr a i ^^^ s6addr b i)))).1

/-- `inet4setbit` and `inet6setbit`: bit 0 is the most significant bit. -/
def setbit {w : ℕ} (addr : BitVec w) (bit : ℕ) : BitVec w := addr ||| BitVec.twoPow w (w - 1 - bit)

theorem getMsbD_setbit {w : ℕ} (addr : BitVec w) {bit : ℕ} (h : bit < w) (i : ℕ) :
    (setbit addr bit).getMsbD i = (addr.getMsbD i || decide (i = bit)) := by
  unfold setbit
  rw [BitVec.getMsbD_or, BitVec.getMsbD_twoPow, show w - (w - 1 - bit) - 1 = bit by omega,
    decide_eq_true (show w - 1 - bit < w by omega), Bool.true_and]

theorem inet4findmsb_spec (a b : BitVec 32) (h : a ≠ b) : FirstDiff a b (inet4findmsb a b) := by
  have hpos : 0 < (a ^^^ b).toNat := by
    rw [Nat.pos_iff_ne_zero]
    intro h0
    exact h (BitVec.xor_eq_zero_iff.mp (BitVec.eq_of_toNat_eq h0))
  have h₀ : Split (a ^^^ b).toNat (0, (a ^^^ b).toNat) := ⟨by simp, hpos⟩
  have h₁ := bisect_spec (k := 16) h₀ (a ^^^ b).isLt
  have h₂ := bisect_spec (k := 8) h₁.1 h₁.2
  have h₃ := bisect_spec (k := 4) h₂.1 h₂.2
  have h₄ := bisect_spec (k := 2) h₃.1 h₃.2
  have h₅ := bisect_spec (k := 1) h₄.1 h₄.2
  exact firstDiff_of_bounds (h₅.1.bounds h₅.2)

/-- The loop stops at the first different octet. -/
theorem inet6diff_spec (a b : BitVec 128) (fuel i : ℕ) (hfuel : fuel + i = 16)
    (hhigh : a.toNat / 2 ^ (8 * (16 - i)) = b.toNat / 2 ^ (8 * (16 - i))) :
    let j := inet6diff a b fuel i
    j ≤ 16 ∧ a.toNat / 2 ^ (8 * (16 - j)) = b.toNat / 2 ^ (8 * (16 - j)) ∧
      (j < 16 → s6addr a j ≠ s6addr b j) := by
  induction fuel generalizing i with
  | zero =>
    obtain rfl : i = 16 := by omega
    exact ⟨le_rfl, hhigh, fun h => absurd h (lt_irrefl _)⟩
  | succ fuel ih =>
    rw [inet6diff]
    split
    · next heq =>
      apply ih (i + 1) (by omega)
      -- the octets up to this one are the same, so the numbers they stand for are
      have hexp : 8 * (16 - i) = 8 * (15 - i) + 8 := by omega
      rw [show 16 - (i + 1) = 15 - i by omega]
      rw [hexp, Nat.pow_add, ← Nat.div_div_eq_div_mul, ← Nat.div_div_eq_div_mul] at hhigh
      unfold s6addr at heq
      omega
    · next hne => exact ⟨by omega, hhigh, fun _ => hne⟩

/-- Two numbers with the same bits from the ninth on. -/
theorem xor_mod_256 {x y : ℕ} (h : x / 256 = y / 256) : x ^^^ y = x % 256 ^^^ (y % 256) := by
  apply Nat.eq_of_testBit_eq
  intro i
  rw [Nat.testBit_xor, Nat.testBit_xor, show 256 = 2 ^ 8 from rfl, Nat.testBit_mod_two_pow,
    Nat.testBit_mod_two_pow]
  by_cases hi : i < 8
  · simp [hi]
  · have hbit : ∀ z : ℕ, z.testBit i = (z / 256).testBit (i - 8) := by
      intro z
      rw [show 256 = 2 ^ 8 from rfl, Nat.testBit_div_two_pow, show i - 8 + 8 = i by omega]
    rw [hbit x, hbit y, h]
    simp [hi]

/-- The result is the first bit in which the addresses differ. -/
theorem inet6findmsb_spec (a b : BitVec 128) (h : a ≠ b) : FirstDiff a b (inet6findmsb a b) := by
  have hspec := inet6diff_spec a b 16 0 rfl
    (by rw [Nat.div_eq_of_lt a.isLt, Nat.div_eq_of_lt b.isLt])
  unfold inet6findmsb
  dsimp only
  generalize inet6diff a b 16 0 = i at *
  obtain ⟨hle, hhigh, hne⟩ := hspec
  have hi : i < 16 := by
    refine lt_of_le_of_ne hle ?_
    rintro rfl
    exact h (BitVec.eq_of_toNat_eq (by simpa using hhigh))
  specialize hne hi
  -- the exclusive or of the octets is what the exclusive or of the addresses starts with
  have hexp : 8 * (16 - i) = 8 * (15 - i) + 8 := by omega
  rw [hexp, Nat.pow_add, ← Nat.div_div_eq_div_mul, ← Nat.div_div_eq_div_mul] at hhigh
  have hx : (a ^^^ b).toNat / 2 ^ (8 * (15 - i)) = s6addr a i ^^^ s6addr b i := by
    rw [BitVec.toNat_xor, ← Nat.shiftRight_eq_div_pow, Nat.shiftRight_xor_distrib,
      Nat.shiftRight_eq_div_pow, Nat.shiftRight_eq_div_pow]
    exact xor_mod_256 hhigh
  have hpos : 0 < s6addr a i ^^^ s6addr b i := by
    rw [Nat.pos_iff_ne_zero]
    intro h0
    apply hne
    apply Nat.eq_of_testBit_eq
    intro j
    have := congrArg (Nat.testBit · j) h0
    simpa using this
  have hlt : s6addr a i ^^^ s6addr b i < 2 ^ 8 :=
    Nat.xor_lt_two_pow (Nat.mod_lt _ (by omega)) (Nat.mod_lt _ (by omega))
  have h₀ : Split (s6addr a i ^^^ s6addr b i) (0, s6addr a i ^^^ s6addr b i) := ⟨by simp, hpos⟩
  have h₁ := bisect_spec (k := 4) h₀ hlt
  have h₂ := bisect_spec (k := 2) h₁.1 h₁.2
  have h₃ := bisect_spec (k := 1) h₂.1 h₂.2
  have hb := h₃.1.bounds h₃.2
  generalize (bisect 1 (bisect 2 (bisect 4 (0, s6addr a i ^^^ s6addr b i)))).1 = r at *
  have hr : r < 8 := (Nat.pow_lt_pow_iff_right (by omega)).mp (lt_of_le_of_lt hb.1 hlt)
  have hfirst : FirstDiff a b (128 - 1 - (8 * (15 - i) + r)) := by
    apply firstDiff_of_bounds
    rw [← hx] at hb
    have hpow : 0 < 2 ^ (8 * (15 - i)) := Nat.two_pow_pos _
    constructor
    · rw [Nat.pow_add, Nat.mul_comm]
      exact (Nat.le_div_iff_mul_le hpow).mp hb.1
    · rw [Nat.add_assoc, Nat.pow_add, Nat.mul_comm]
      exact (Nat.div_lt_iff_lt_mul hpow).mp hb.2
  rwa [show 128 - 1 - (8 * (15 - i) + r) = i * 8 + 7 - r by omega] at hfirst

/-- An address family: the number of address bits and the search for the first different bit. -/
structure Family where
  bits : ℕ
  one_lt_bits : 1 < bits
  findmsb : BitVec bits → BitVec bits → ℕ
  firstDiff : ∀ a b, a ≠ b → FirstDiff a b (findmsb a b)

/-- `AID_INET` -/
def inet : Family where
  bits := 32
  one_lt_bits := by decide
  findmsb := inet4findmsb
  firstDiff := inet4findmsb_spec

/-- `AID_INET6` -/
def inet6 : Family where
  bits := 128
  one_lt_bits := by decide
  findmsb := inet6findmsb
  firstDiff := inet6findmsb_spec

/-! ## Nodes -/

variable {δ : Type}

/-- `struct tentry_v4` and `struct tentry_v6`. `real` is the field `node`, `data` are the fields
    the caller of `trie_add_v4` or `trie_add_v6` changes. -/
inductive Trie (w : ℕ) (δ : Type) where
  | nil
  | node (addr : BitVec w) (plen : ℕ) (real : Bool) (data : δ) (trie0 trie1 : Trie w δ)
  deriving DecidableEq, Repr

/-- A new node without children. -/
def Trie.new {w : ℕ} [Inhabited δ] (upd : δ → δ) (p : BitVec w) (plen : ℕ) : Trie w δ :=
  .node p plen true (upd default) .nil .nil

/-- The walk of `trie_add_v4` and `trie_add_v6` for an address `p` to which the mask has been
    applied. -/
def trieAddWalk (fam : Family) [Inhabited δ] (upd : δ → δ) (p : BitVec fam.bits) (plen : ℕ) :
    Trie fam.bits δ → Trie fam.bits δ
  | .nil => .new upd p plen
  | .node addr nplen real data trie0 trie1 =>
    let minlen := if nplen > plen then plen else nplen
    let mp := topBits p minlen
    if addr ≠ mp then
      -- out of path, insert intermediary node, then insert n and new node there
      let bplen := fam.findmsb addr mp
      let baddr := topBits addr bplen
      if addr.getMsbD bplen then
        .node baddr bplen false default (.new upd p plen) (.node addr nplen real data trie0 trie1)
      else
        .node baddr bplen false default (.node addr nplen real data trie0 trie1) (.new upd p plen)
    else if nplen > plen then
      -- n is more specific, just insert new in between
      if addr.getMsbD plen then
        .node p plen true (upd default) .nil (.node addr nplen real data trie0 trie1)
      else
        .node p plen true (upd default) (.node addr nplen real data trie0 trie1) .nil
    else if nplen = plen then
      -- matching node, adjust
      .node addr nplen true (upd data) trie0 trie1
    else if p.getMsbD nplen then
      .node addr nplen real data trie0 (trieAddWalk fam upd p plen trie1)
    else
      .node addr nplen real data (trieAddWalk fam upd p plen trie0) trie1

/-- `trie_add_v4` and `trie_add_v6`, and the change `upd` of the node they return. -/
def trieAddNode (fam : Family) [Inhabited δ] (upd : δ → δ) (addr : BitVec fam.bits) (plen : ℕ)
    (t : Trie fam.bits δ) : Trie fam.bits δ :=
  trieAddWalk fam upd (topBits addr plen) plen t

/-! ## Prefix sets -/

/-- `for (i = min; i <= max; i++) setbit(plenmask, i - 1)` -/
def setRange {w : ℕ} (plenmask : BitVec w) (min max : ℕ) : BitVec w :=
  (List.range' min (max + 1 - min)).foldl (fun m i => setbit m (i - 1)) plenmask

/-- The walk of `trie_match_v4` and `trie_match_v6`. The data is `plenmask`. -/
def trieMatchWalk {w : ℕ} (addr : BitVec w) (plen : ℕ) (orlonger : Bool) :
    Trie w (BitVec w) → Bool
  | .nil => false
  | .node naddr nplen real plenmask trie0 trie1 =>
    -- too specific, no match possible
    if nplen > plen then false
    -- off path, no match possible
    else if naddr ≠ topBits addr nplen then false
    -- the match covers all larger prefixlens
    else if real && orlonger then true
    -- plen starts with 1 but the bitmask starts with 0
    else if real && plenmask.getMsbD (plen - 1) then true
    -- can't go deeper
    else if nplen = w then false
    else if addr.getMsbD nplen then trieMatchWalk addr plen orlonger trie1
    else trieMatchWalk addr plen orlonger trie0

/-- One half of `struct trie_head`: the root for one address family and its default flag. -/
structure TrieRoot (fam : Family) where
  root : Trie fam.bits (BitVec fam.bits) := .nil
  matchDefault : Bool := false

/-- `trie_add` for an address of the family; `false` stands for the return value -1. -/
def TrieRoot.add {fam : Family} (th : TrieRoot fam) (addr : BitVec fam.bits) (plen min max : ℕ) :
    Bool × TrieRoot fam :=
  -- precondition plen <= min <= max
  if plen > min ∨ min > max then (false, th)
  else
    let th := if min = 0 then { th with matchDefault := true } else th
    -- just the default route
    if min = 0 ∧ max = 0 then (true, th)
    else if max > fam.bits then (false, th)
    else
      let min := if min = 0 then 1 else min
      (true, { th with root := trieAddNode fam (setRange · min max) addr plen th.root })

/-- `trie_match_v4` and `trie_match_v6` -/
def TrieRoot.match {fam : Family} (th : TrieRoot fam) (addr : BitVec fam.bits) (plen : ℕ)
    (orlonger : Bool) : Bool :=
  -- special handling for default route
  if plen = 0 then th.matchDefault
  else trieMatchWalk addr plen orlonger th.root

/-- `struct bgpd_addr` with one of the two address families that a set can hold. -/
inductive InetAddr where
  | v4 (addr : BitVec inet.bits)
  | v6 (addr : BitVec inet6.bits)
  deriving DecidableEq, Repr

/-- `struct trie_head` of a prefix set. -/
structure TrieHead where
  v4 : TrieRoot inet := {}
  v6 : TrieRoot inet6 := {}

/-- `trie_add` -/
def trieAdd (th : TrieHead) (addr : InetAddr) (plen min max : ℕ) : Bool × TrieHead :=
  match addr with
  | .v4 a => ((th.v4.add a plen min max).1, { th with v4 := (th.v4.add a plen min max).2 })
  | .v6 a => ((th.v6.add a plen min max).1, { th with v6 := (th.v6.add a plen min max).2 })

/-- `trie_match` -/
def trieMatch (th : TrieHead) (addr : InetAddr) (plen : ℕ) (orlonger : Bool) : Bool :=
  match addr with
  | .v4 a => th.v4.match a plen orlonger
  | .v6 a => th.v6.match a plen orlonger

/-! ## ROA sets -/

/-- `struct roa_set` -/
structure RoaSet where
  as : ℕ
  maxlen : ℕ
  deriving DecidableEq, Repr

/-- `struct set_table` with elements of type `struct roa_set`; `none` is a `NULL` pointer. -/
abbrev SetTable := Option (List RoaSet)

/-- `set_match`: `bsearch` for the AS in the sorted table. -/
def setMatch (a : SetTable) (asnum : ℕ) : Option RoaSet :=
  match a with
  | none => none
  | some set => set.find? fun rs => rs.as = asnum

/-- `set_prep`: `qsort` by the AS. -/
def setPrep (set : List RoaSet) : List RoaSet := set.insertionSort fun a b => a.as ≤ b.as

/-- The end of `trie_roa_add`: merge sets with same key, longer maxlen wins. -/
def roaMerge (asnum maxlen : ℕ) (stp : SetTable) : SetTable :=
  let set := stp.getD []
  match setMatch (some set) asnum with
  | some rsp =>
    if rsp.maxlen < maxlen then
      some (set.map fun rs => if rs.as = asnum then { rs with maxlen := maxlen } else rs)
    else some set
  | none => some (setPrep (set ++ [⟨asnum, maxlen⟩]))

/-- The results of an origin validation. -/
inductive RoaState where
  | notfound | invalid | valid
  deriving DecidableEq, Repr

/-- `AS_NONE` -/
def asNone : ℕ := 0

/-- The walk of `trie_roa_check_v4` and `trie_roa_check_v6`. -/
def trieRoaCheckWalk {w : ℕ} (addr : BitVec w) (plen as : ℕ) :
    Trie w SetTable → RoaState → RoaState
  | .nil, validity => validity
  | .node naddr nplen real set trie0 trie1, validity =>
    -- too specific, no match possible
    if nplen > plen then validity
    -- off path, no other match possible
    else if naddr ≠ topBits addr nplen then validity
    else
      -- AS_NONE can never match, so don't try
      let match? := if real ∧ as ≠ asNone then setMatch set as else none
      if match?.any fun rs => plen = nplen || plen ≤ rs.maxlen then .valid
      else
        -- The prefix is covered by this roa node therefore invalid unless roa_set matches.
        let validity := if real then .invalid else validity
        -- can't go deeper
        if nplen = w then validity
        else if addr.getMsbD nplen then trieRoaCheckWalk addr plen as trie1 validity
        else trieRoaCheckWalk addr plen as trie0 validity

/-- `struct roa` for one address family. -/
structure Roa (fam : Family) where
  addr : BitVec fam.bits
  prefixlen : ℕ
  maxlen : ℕ
  asnum : ℕ

/-- `trie_roa_add` for an address of the family; `none` is the return value -1. -/
def roaAdd {fam : Family} (t : Trie fam.bits SetTable) (roa : Roa fam) :
    Option (Trie fam.bits SetTable) :=
  if roa.prefixlen > fam.bits then none
  else some (trieAddNode fam (roaMerge roa.asnum roa.maxlen) roa.addr roa.prefixlen t)

/-- `struct trie_head` of a ROA set. -/
structure RoaHead where
  v4 : Trie inet.bits SetTable := .nil
  v6 : Trie inet6.bits SetTable := .nil

/-- `struct roa` -/
inductive AnyRoa where
  | v4 (roa : Roa inet)
  | v6 (roa : Roa inet6)

/-- `trie_roa_add` -/
def trieRoaAdd (th : RoaHead) : AnyRoa → Option RoaHead
  | .v4 roa => (roaAdd th.v4 roa).map fun t => { th with v4 := t }
  | .v6 roa => (roaAdd th.v6 roa).map fun t => { th with v6 := t }

/-- `trie_roa_check` -/
def trieRoaCheck (th : RoaHead) (addr : InetAddr) (plen as : ℕ) : RoaState :=
  match addr with
  | .v4 a => trieRoaCheckWalk a plen as th.v4 .notfound
  | .v6 a => trieRoaCheckWalk a plen as th.v6 .notfound

end Bgpd.Rpki
