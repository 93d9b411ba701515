import Mathlib.Data.List.Induction
import Bgpd.Rpki.TrieSpec

/-!
# Prefix Sets

What a trie that was filled with `trie_add` answers. For items of one address family, a trie
in which no item got lost holds at each prefix the union of the ranges that were added for it,
and `trie_match` answers as the items say.

Items are added in the order of `prefixset_cmp`, which compares addresses before any mask is
applied. If the address of an item has bits beyond its length, the item may come after items
inside it.

## Main results

- `Holds.match_iff`: what `trie_match` answers if no item got lost
- `neverLost_of_masked`, `addAll_holds`: when no item gets lost, whatever the ranges are
- `addAll_holds_of_kept`: the same for items with the ranges that they have
-/

namespace Bgpd.Rpki

open Bgpd.Lib

/-! ## One address family -/

/-- `struct prefixset_item` with an address of the family. -/
structure Item (fam : Family) where
  addr : BitVec fam.bits
  len : ℕ
  lenMin : ℕ
  lenMax : ℕ

variable {fam : Family}

namespace Item

/-- What `merge_prefixspec` checks. -/
def Ok (i : Item fam) : Prop := i.len ≤ i.lenMin ∧ i.lenMin ≤ i.lenMax ∧ i.lenMax ≤ fam.bits

/-- The item says that the prefix is in the set. -/
def Covers (i : Item fam) (q : BitVec fam.bits) (qlen : ℕ) : Prop :=
  topBits i.addr i.len = topBits q i.len ∧ i.lenMin ≤ qlen ∧ qlen ≤ i.lenMax

/-- The prefix of the item, with the mask applied. -/
def key (i : Item fam) : BitVec fam.bits × ℕ := (topBits i.addr i.len, i.len)

/-- The item is more than the default route, which is only a flag. -/
def Adds (i : Item fam) : Prop := ¬(i.lenMin = 0 ∧ i.lenMax = 0)

end Item

/-- `trie_add` for one item. -/
def TrieRoot.addItem (th : TrieRoot fam) (i : Item fam) : TrieRoot fam :=
  (th.add i.addr i.len i.lenMin i.lenMax).2

/-- A trie that is filled with `trie_add`. -/
def addAll (items : List (Item fam)) : TrieRoot fam := items.foldl TrieRoot.addItem {}

/-- The bits that the loop of `trie_add` sets. -/
theorem getMsbD_setRange {w : ℕ} (m : BitVec w) {min max : ℕ} (hmin : 1 ≤ min) (hmax : max ≤ w)
    (b : ℕ) :
    (setRange m min max).getMsbD b = (m.getMsbD b || decide (min ≤ b + 1 ∧ b + 1 ≤ max)) := by
  unfold setRange
  obtain ⟨n, hn⟩ : ∃ n, max + 1 - min = n := ⟨_, rfl⟩
  rw [hn]
  induction n generalizing m min with
  | zero =>
    rw [List.range'_zero, List.foldl_nil, decide_eq_false (by omega), Bool.or_false]
  | succ n ih =>
    rw [List.range'_succ, List.foldl_cons, ih _ (by omega) (by omega),
      getMsbD_setbit m (show min - 1 < w by omega), Bool.or_assoc]
    congr 1
    by_cases hb : b = min - 1
    · rw [decide_eq_true hb, Bool.true_or, eq_comm, decide_eq_true_eq]
      omega
    · rw [decide_eq_false hb, Bool.false_or]
      apply Bool.decide_congr
      omega

/-- The trie holds the items: a node for each prefix, with the union of the ranges. -/
structure Holds (items : List (Item fam)) (th : TrieRoot fam) : Prop where
  wf : th.root.Wf
  dflt : th.matchDefault = true ↔ ∃ i ∈ items, i.lenMin = 0
  keys : ∀ e, th.root.Key e ↔ ∃ i ∈ items, i.Adds ∧ i.key = e
  range : ∀ e d, topBits e.1 e.2 = e.1 → th.root.get e.1 e.2 = some d → ∀ b,
    d.getMsbD b = true ↔ ∃ i ∈ items, i.Adds ∧ i.key = e ∧ i.lenMin ≤ b + 1 ∧ b + 1 ≤ i.lenMax

theorem Holds.nil : Holds ([] : List (Item fam)) {} where
  wf := trivial
  dflt := by simp
  keys := by simp [Trie.Key, Trie.get]
  range := by simp [Trie.get]

/-- What `trie_add` does for an item with a range that fits. -/
theorem addItem_eq (th : TrieRoot fam) {i : Item fam} (hi : i.Ok) :
    th.addItem i =
      { root := if i.lenMin = 0 ∧ i.lenMax = 0 then th.root
          else trieAddNode fam (setRange · (max 1 i.lenMin) i.lenMax) i.addr i.len th.root
        matchDefault := th.matchDefault || decide (i.lenMin = 0) } := by
  obtain ⟨h₁, h₂, h₃⟩ := hi
  have hmax : max 1 i.lenMin = if i.lenMin = 0 then 1 else i.lenMin := by
    split <;> omega
  unfold TrieRoot.addItem TrieRoot.add
  rw [if_neg (by omega), hmax]
  by_cases hmin : i.lenMin = 0
  · by_cases hdef : i.lenMax = 0
    · simp [hmin, hdef]
    · simp [hmin, hdef, Nat.not_lt.mpr h₃]
  · simp [hmin, Nat.not_lt.mpr h₃]

theorem exists_mem_concat {α : Type} {P : α → Prop} {l : List α} {a : α} :
    (∃ x ∈ l ++ [a], P x) ↔ (∃ x ∈ l, P x) ∨ P a := by
  simp [or_and_right, exists_or]

/-- The range that is kept for a prefix, which is empty if there is no node for it. -/
theorem Holds.range_getD {items : List (Item fam)} {th : TrieRoot fam} (h : Holds items th)
    {e : BitVec fam.bits × ℕ} (he : topBits e.1 e.2 = e.1) (b : ℕ) :
    ((th.root.get e.1 e.2).getD default).getMsbD b = true ↔
      ∃ i ∈ items, i.Adds ∧ i.key = e ∧ i.lenMin ≤ b + 1 ∧ b + 1 ≤ i.lenMax := by
  cases hd : th.root.get e.1 e.2 with
  | some d => exact h.range e d he hd b
  | none =>
    refine iff_of_false ?_ ?_
    · show ¬(BitVec.zero fam.bits).getMsbD b = true
      simp
    · rintro ⟨i, hi, hadds, hkey, -⟩
      obtain ⟨-, d, hd'⟩ := (h.keys e).mpr ⟨i, hi, hadds, hkey⟩
      rw [hd] at hd'
      exact absurd hd' (by simp)

/-- An item that does not get lost is held afterwards, with the items before. -/
theorem Holds.addItem {items : List (Item fam)} {th : TrieRoot fam} (h : Holds items th)
    {i : Item fam} (hi : i.Ok) (hok : i.Adds → th.root.AddOk (topBits i.addr i.len) i.len) :
    Holds (items ++ [i]) (th.addItem i) := by
  -- the flag says if some item takes all lengths
  have hdflt : (th.addItem i).matchDefault = true ↔ ∃ j ∈ items ++ [i], j.lenMin = 0 := by
    rw [addItem_eq th hi]
    rw [exists_mem_concat, ← h.dflt]
    simp
  by_cases hadds : i.Adds
  · have hroot : (th.addItem i).root =
        trieAddNode fam (setRange · (max 1 i.lenMin) i.lenMax) i.addr i.len th.root := by
      rw [addItem_eq th hi]
      exact if_neg hadds
    obtain ⟨h₁, h₂, h₃⟩ := hi
    have hspec : AddSpec (setRange · (max 1 i.lenMin) i.lenMax) (topBits i.addr i.len) i.len th.root
        (th.addItem i).root := by
      rw [hroot]
      exact addWalk_spec h.wf (topBits_topBits_of_le le_rfl _) (by omega) (hok hadds)
    have hmask : topBits (topBits i.addr i.len) i.len = topBits i.addr i.len :=
      topBits_topBits_of_le le_rfl _
    refine ⟨hspec.wf, hdflt, ?_, ?_⟩
    · -- one more prefix
      intro e
      rw [hspec.key_iff hmask, exists_mem_concat, h.keys, or_comm]
      exact or_congr_right ⟨fun he => ⟨hadds, he.symm⟩, fun he => he.2.symm⟩
    · intro e d he hd b
      rw [hspec.get _ _ he] at hd
      rw [exists_mem_concat, ← h.range_getD he b]
      split at hd
      · next heq =>
        -- the range is added to what was there
        obtain rfl : e = i.key := Prod.ext heq.1 heq.2
        cases hd
        rw [getMsbD_setRange _ (by omega) h₃, Bool.or_eq_true, decide_eq_true_eq]
        refine or_congr Iff.rfl ?_
        constructor
        · exact fun ⟨h₄, h₅⟩ => ⟨hadds, rfl, by omega, h₅⟩
        · exact fun ⟨_, _, h₄, h₅⟩ => ⟨by omega, h₅⟩
      · next hne =>
        rw [hd, Option.getD_some, or_iff_left]
        rintro ⟨-, rfl, -⟩
        exact hne ⟨rfl, rfl⟩
  · -- only the flag
    have hroot : (th.addItem i).root = th.root := by
      rw [addItem_eq th hi]
      exact if_pos (not_not.mp hadds)
    refine ⟨hroot ▸ h.wf, hdflt, ?_, ?_⟩
    · intro e
      rw [hroot, h.keys, exists_mem_concat, or_iff_left fun he => hadds he.1]
    · intro e d he hd b
      rw [hroot] at hd
      rw [h.range e d he hd b, exists_mem_concat, or_iff_left fun he => hadds he.1]

/-- The walk of `trie_match` in terms of the nodes that it visits. -/
theorem matchWalk_eq {w : ℕ} (q : BitVec w) (qlen : ℕ) (t : Trie w (BitVec w)) :
    trieMatchWalk q qlen false t = (t.covers q qlen).any fun x => x.2.getMsbD (qlen - 1) := by
  induction t with
  | nil => rfl
  | node addr nplen real plenmask trie0 trie1 ih0 ih1 =>
    rw [trieMatchWalk, Trie.covers]
    split
    · rfl
    split
    · rfl
    rw [Bool.and_false, if_neg Bool.false_ne_true, List.any_append]
    cases hbit : real && plenmask.getMsbD (qlen - 1) with
    | true =>
      obtain ⟨rfl, hb⟩ := (Bool.and_eq_true _ _).mp hbit
      simp [hb]
    | false =>
      have hself : (if real = true then [(nplen, plenmask)] else []).any
          (fun x => x.2.getMsbD (qlen - 1)) = false := by
        cases real with
        | false => rfl
        | true => simpa using hbit
      rw [hself, Bool.false_or, if_neg Bool.false_ne_true]
      split
      · rfl
      split
      · exact ih1
      · exact ih0

/-- If the trie holds the items, `trie_match` answers as they say. -/
theorem Holds.match_iff {items : List (Item fam)} {th : TrieRoot fam} (h : Holds items th)
    (hok : ∀ i ∈ items, i.Ok) (q : BitVec fam.bits) (qlen : ℕ) :
    th.match q qlen false = true ↔ ∃ i ∈ items, i.Covers q qlen := by
  unfold TrieRoot.match
  by_cases hq : qlen = 0
  · rw [if_pos hq, h.dflt, hq]
    constructor
    · rintro ⟨i, hi, hmin⟩
      have hlen : i.len = 0 := by
        have := (hok i hi).1
        omega
      exact ⟨i, hi, by rw [hlen, topBits_zero, topBits_zero], by omega, by omega⟩
    · rintro ⟨i, hi, -, hmin, -⟩
      exact ⟨i, hi, by omega⟩
  rw [if_neg hq, matchWalk_eq, List.any_eq_true]
  have hmask : ∀ n, topBits (topBits q n) n = topBits q n := fun n => topBits_topBits_of_le le_rfl q
  constructor
  · rintro ⟨⟨n, d⟩, hmem, hbit⟩
    obtain ⟨hn, hget⟩ := (mem_covers_iff h.wf).mp hmem
    obtain ⟨i, hi, -, hkey, hmin, hmax⟩ := (h.range (topBits q n, n) d (hmask n) hget _).mp hbit
    obtain ⟨h₁, rfl⟩ := Prod.mk.inj hkey
    exact ⟨i, hi, h₁, by omega, by omega⟩
  · rintro ⟨i, hi, htop, hmin, hmax⟩
    obtain ⟨h₁, h₂, h₃⟩ := hok i hi
    have hadds : i.Adds := fun hno => by omega
    have hkey : i.key = (topBits q i.len, i.len) := by rw [Item.key, htop]
    obtain ⟨-, d, hd⟩ := (h.keys _).mpr ⟨i, hi, hadds, hkey⟩
    refine ⟨(i.len, d), (mem_covers_iff h.wf).mpr ⟨by omega, hd⟩, ?_⟩
    exact (h.range _ d (hmask _) hd _).mpr ⟨i, hi, hadds, hkey, by omega, by omega⟩

/-! ## The order of addition -/

namespace InetAddr

/-- The order of `AID_INET` and `AID_INET6`. -/
def aid : InetAddr → ℕ
  | .v4 _ => 1
  | .v6 _ => 2

/-- The address as a number, by which `memcmp` compares addresses in network byte order. -/
def val : InetAddr → ℕ
  | .v4 a => a.toNat
  | .v6 a => a.toNat

def bits : InetAddr → ℕ
  | .v4 _ => inet.bits
  | .v6 _ => inet6.bits

theorem ext_val {x y : InetAddr} (haid : x.aid = y.aid) (hval : x.val = y.val) : x = y := by
  cases x <;> cases y <;> simp_all [aid, val, BitVec.toNat_inj]

end InetAddr

/-- One field in a comparison function, and what is compared behind it. -/
theorem cmpField_le_zero (x y : ℕ) (r : ℤ) :
    (if x < y then -1 else if x > y then 1 else r) ≤ 0 ↔ x < y ∨ x = y ∧ r ≤ 0 := by
  obtain h | h | h := lt_trichotomy x y
  · simp [h]
  · simp [h]
  · simp [h, h.not_gt, h.ne']

/-- The same with the two tests the other way around. -/
theorem cmpField_le_zero' (x y : ℕ) (r : ℤ) :
    (if x > y then 1 else if x < y then -1 else r) ≤ 0 ↔ x < y ∨ x = y ∧ r ≤ 0 := by
  rw [← cmpField_le_zero]
  obtain h | h | h := lt_trichotomy x y
  · simp [h, h.not_gt]
  · simp [h]
  · simp [h, h.not_gt]

/-! ## Which prefixes get lost -/

/-- The prefix of an item as it is written, without a mask. -/
abbrev RawPrefix (fam : Family) := BitVec fam.bits × ℕ

/-- The nodes that are certain to exist for prefixes, whatever the ranges: an item for the
    default route may be no more than a flag. -/
def NodeFor (L : List (RawPrefix fam)) (e : BitVec fam.bits × ℕ) : Prop :=
  ∃ x ∈ L, x.2 ≠ 0 ∧ (topBits x.1 x.2, x.2) = e

/-- No prefix of the list gets lost among those before it. -/
def NeverLost (L : List (RawPrefix fam)) : Prop :=
  ∀ L₁ x L₂, L = L₁ ++ x :: L₂ → ¬Lost (NodeFor L₁) (topBits x.1 x.2) x.2

def Item.raw (i : Item fam) : RawPrefix fam := (i.addr, i.len)

theorem NeverLost.init {L : List (RawPrefix fam)} {x : RawPrefix fam} (h : NeverLost (L ++ [x])) :
    NeverLost L ∧ ¬Lost (NodeFor L) (topBits x.1 x.2) x.2 := by
  refine ⟨fun L₁ y L₂ hL => h L₁ y (L₂ ++ [x]) ?_, h L x [] rfl⟩
  rw [hL, List.append_assoc, List.cons_append]

/-- The order of addresses and lengths puts nothing inside a prefix before it if the mask was
    applied to all addresses. -/
theorem not_inside_of_masked {x y : RawPrefix fam} (hx : topBits x.1 x.2 = x.1)
    (hy : topBits y.1 y.2 = y.1)
    (hle : y.1.toNat < x.1.toNat ∨ y.1.toNat = x.1.toNat ∧ y.2 ≤ x.2) :
    ¬Inside (topBits x.1 x.2) x.2 (topBits y.1 y.2, y.2) := by
  rintro ⟨hlt, htop⟩
  dsimp only at hlt htop
  rw [hx, hy] at htop
  have hxy : x.1.toNat ≤ y.1.toNat := by
    rw [← htop]
    exact toNat_topBits_le y.1 x.2
  omega

theorem neverLost_of_masked {L : List (RawPrefix fam)} (hmask : ∀ x ∈ L, topBits x.1 x.2 = x.1)
    (hsorted : L.Pairwise fun x y =>
      x.1.toNat < y.1.toNat ∨ x.1.toNat = y.1.toNat ∧ x.2 ≤ y.2) : NeverLost L := by
  rintro L₁ x L₂ rfl hlost
  obtain ⟨e, ⟨y, hy, -, rfl⟩, hin⟩ := hlost.inside
  have hle := (List.pairwise_append.mp hsorted).2.2 y hy x (List.mem_cons_self ..)
  exact not_inside_of_masked (hmask x (by simp)) (hmask y (by simp [hy])) hle hin

/-- The prefixes in a trie that holds the items, but for the default route. -/
theorem Holds.lost_iff {items : List (Item fam)} {th : TrieRoot fam} (h : Holds items th)
    (hok : ∀ i ∈ items, i.Ok) {p : BitVec fam.bits} {plen : ℕ}
    (hl : Lost th.root.Key p plen) : Lost (NodeFor (items.map Item.raw)) p plen := by
  have hnode : ∀ e, NodeFor (items.map Item.raw) e ↔ th.root.Key e ∧ e.2 ≠ 0 := by
    intro e
    rw [h.keys]
    constructor
    · rintro ⟨x, hx, hne, rfl⟩
      obtain ⟨i, hi, rfl⟩ := List.mem_map.mp hx
      refine ⟨⟨i, hi, fun hno => ?_, rfl⟩, hne⟩
      have := (hok i hi).1
      have : i.len ≠ 0 := hne
      omega
    · rintro ⟨⟨i, hi, -, rfl⟩, hne⟩
      exact ⟨i.raw, List.mem_map_of_mem hi, hne, rfl⟩
  obtain ⟨hfresh, ⟨e, he, hin⟩, j, hj, hall⟩ := hl
  refine ⟨fun hk => hfresh ((hnode _).mp hk).1, ⟨e, (hnode e).mpr ⟨he, ?_⟩, hin⟩, j, hj,
    fun e he hin => hall e ((hnode e).mp he).1 hin⟩
  have := hin.1
  omega

/-- If no prefix gets lost, the trie holds all items, whatever their ranges. -/
theorem addAll_holds (items : List (Item fam)) (hok : ∀ i ∈ items, i.Ok)
    (hnever : NeverLost (items.map Item.raw)) : Holds items (addAll items) := by
  induction items using List.reverseRecOn with
  | nil => exact Holds.nil
  | append_singleton items i ih =>
    rw [List.map_append] at hnever
    obtain ⟨hinit, hlast⟩ := hnever.init
    have hok' : ∀ j ∈ items, j.Ok := fun j hj => hok j (List.mem_append_left _ hj)
    have h := ih hok' hinit
    unfold addAll at h ⊢
    rw [List.foldl_append]
    apply h.addItem (hok i (by simp))
    intro _
    rw [addOk_iff h.wf (topBits_topBits_of_le le_rfl _)]
    exact fun hl => hlast (h.lost_iff hok' hl)

/-- No item with a node gets lost among those before it. -/
def ItemsKept (items : List (Item fam)) : Prop :=
  ∀ l i l', items = l ++ i :: l' → i.Adds →
    ¬Lost (fun e => ∃ j ∈ l, j.Adds ∧ j.key = e) i.key.1 i.key.2

/-- The trie holds all items if none gets lost. -/
theorem addAll_holds_of_kept (items : List (Item fam)) (hok : ∀ i ∈ items, i.Ok)
    (hkept : ItemsKept items) : Holds items (addAll items) := by
  induction items using List.reverseRecOn with
  | nil => exact Holds.nil
  | append_singleton items i ih =>
    have hinit : ItemsKept items := by
      intro l j l' heq
      refine hkept l j (l' ++ [i]) ?_
      rw [heq, List.append_assoc, List.cons_append]
    have h := ih (fun j hj => hok j (List.mem_append_left _ hj)) hinit
    unfold addAll at h ⊢
    rw [List.foldl_append]
    apply h.addItem (hok i (by simp))
    intro hadds
    rw [addOk_iff h.wf (topBits_topBits_of_le le_rfl _),
      show (List.foldl TrieRoot.addItem {} items).root.Key = _ from
        funext fun e => propext (h.keys e)]
    exact hkept items i [] rfl hadds

end Bgpd.Rpki
