import Bgpd.Rpki.PrefixSetLost

/-!
# Matching Or Longer

With `or-longer`, a filter rule matches every prefix that is inside one of the prefix set, as if
each item had the range from its own length on. The walk of `trie_match` then stops at the first
real node. The default route is no node: an item 0.0.0.0/0 without a range is only a flag, and
the flag is only looked at for the default route itself. So the walk does not find what is only
inside the default route, and an item 0.0.0.0/0 with a range that leaves out the length zero does
not match the default route.

## Main results

- `mem_of_matchWalk`: what the walk finds was added
- `defaultSeen_of_longer`, `longer_of_defaultSeen`: what the default route needs
- `orlonger_iff`: the sets for which `or-longer` means what it says
-/

namespace Bgpd.Rpki

open Bgpd.Lib

variable {fam : Family}

/-! ## The walk -/

/-- With `orlonger` the walk looks for any node that it visits. -/
theorem matchWalk_longer {w : ℕ} (q : BitVec w) (qlen : ℕ) (t : Trie w (BitVec w)) :
    trieMatchWalk q qlen true t = true ↔ ∃ x, x ∈ t.covers q qlen := by
  induction t with
  | nil => simp [trieMatchWalk, Trie.covers]
  | node addr nplen real plenmask trie0 trie1 ih0 ih1 =>
    rw [trieMatchWalk, Trie.covers, Bool.and_true]
    split
    · simp
    split
    · simp
    cases real with
    | true => simp
    | false =>
      simp only [Bool.false_and, Bool.false_eq_true, if_false, List.nil_append]
      split
      · simp
      split
      · exact ih1
      · exact ih0

/-- What holds of all real nodes. -/
def Trie.AllReal {w : ℕ} {δ : Type} (P : BitVec w × ℕ → Prop) : Trie w δ → Prop
  | .nil => True
  | .node addr plen real _ trie0 trie1 =>
    (real = true → P (addr, plen)) ∧ trie0.AllReal P ∧ trie1.AllReal P

section AllReal

variable {δ : Type} {P Q : BitVec fam.bits × ℕ → Prop} {t : Trie fam.bits δ}

theorem Trie.AllReal.mono (h : t.AllReal P) (hPQ : ∀ e, P e → Q e) : t.AllReal Q := by
  induction t with
  | nil => exact trivial
  | node addr plen real data trie0 trie1 ih0 ih1 =>
    exact ⟨fun hreal => hPQ _ (h.1 hreal), ih0 h.2.1, ih1 h.2.2⟩

/-- A lookup visits real nodes that cover the address. -/
theorem Trie.AllReal.covers (h : t.AllReal P) {q : BitVec fam.bits} {qlen : ℕ} {x : ℕ × δ}
    (hx : x ∈ t.covers q qlen) : x.1 ≤ qlen ∧ P (topBits q x.1, x.1) := by
  induction t with
  | nil => simp [Trie.covers] at hx
  | node addr nplen real data trie0 trie1 ih0 ih1 =>
    rw [Trie.covers] at hx
    split at hx
    · simp at hx
    next hle =>
    split at hx
    · simp at hx
    next hon =>
    rw [not_not] at hon
    rcases List.mem_append.mp hx with hself | hbelow
    · cases real with
      | false => simp at hself
      | true =>
        obtain rfl : x = (nplen, data) := by simpa using hself
        exact ⟨Nat.le_of_not_lt hle, hon ▸ h.1 rfl⟩
    · split at hbelow
      · simp at hbelow
      split at hbelow
      · exact ih1 h.2.2 hbelow
      · exact ih0 h.2.1 hbelow

theorem Trie.AllReal.fork {addr : BitVec fam.bits} {plen : ℕ} {real side : Bool} {data : δ}
    {x y : Trie fam.bits δ} (hself : real = true → P (addr, plen)) (hx : x.AllReal P)
    (hy : y.AllReal P) : (Trie.fork addr plen real data side x y).AllReal P := by
  rw [fork_eq]
  cases side with
  | false => exact ⟨hself, hx, hy⟩
  | true => exact ⟨hself, hy, hx⟩

/-- An insertion makes one prefix a real node, wherever it puts it. -/
theorem Trie.AllReal.addWalk [Inhabited δ] {upd : δ → δ} {p : BitVec fam.bits} {plen : ℕ}
    (h : t.AllReal P) (hp : topBits p plen = p) (hnew : P (p, plen)) :
    (trieAddWalk fam upd p plen t).AllReal P := by
  have hleaf : (Trie.new upd p plen).AllReal P := ⟨fun _ => hnew, trivial, trivial⟩
  induction t with
  | nil => exact hleaf
  | node addr nplen real data trie0 trie1 ih0 ih1 =>
    obtain ⟨hself, h0, h1⟩ := id h
    by_cases hoff : addr ≠ topBits p (min nplen plen)
    · rw [addWalk_off hoff]
      exact Trie.AllReal.fork (fun hreal => nomatch hreal) h hleaf
    rw [not_not] at hoff
    obtain hlt | rfl | hlt := lt_trichotomy nplen plen
    · rw [Nat.min_eq_left hlt.le] at hoff
      rw [addWalk_below hoff hlt]
      apply Trie.AllReal.fork hself
      · split
        · exact ih1 h1
        · exact ih0 h0
      · split
        · exact h0
        · exact h1
    · rw [Nat.min_self, hp] at hoff
      rw [addWalk_same (hoff.trans hp.symm)]
      exact ⟨fun _ => hoff ▸ hnew, h0, h1⟩
    · rw [Nat.min_eq_right hlt.le] at hoff
      rw [addWalk_above hoff hlt]
      exact Trie.AllReal.fork (fun _ => hnew) h trivial

end AllReal

/-! ## One address family -/

namespace Item

/-- The prefix of the item covers the prefix that is looked for. -/
def CoversLonger (i : Item fam) (q : BitVec fam.bits) (qlen : ℕ) : Prop :=
  topBits i.addr i.len = topBits q i.len ∧ i.len ≤ qlen

end Item

/-- Masked items in the order of `prefixset_cmp` are all kept. -/
theorem itemsKept_of_masked {items : List (Item fam)}
    (hmask : ∀ i ∈ items, topBits i.addr i.len = i.addr)
    (hsorted : items.Pairwise fun a b =>
      a.addr.toNat < b.addr.toNat ∨ a.addr.toNat = b.addr.toNat ∧ a.len ≤ b.len) :
    ItemsKept items := by
  rintro l i l' rfl - hlost
  obtain ⟨e, ⟨j, hj, -, rfl⟩, hin⟩ := hlost.inside
  have hle := (List.pairwise_append.mp hsorted).2.2 j hj i List.mem_cons_self
  exact not_inside_of_masked (x := i.raw) (y := j.raw) (hmask i (by simp))
    (hmask j (List.mem_append_left _ hj)) hle hin

section Default

variable {items : List (Item fam)}

/-- The flag for the default route, wherever the nodes are put. -/
theorem addAll_matchDefault (hok : ∀ i ∈ items, i.Ok) :
    (addAll items).matchDefault = true ↔ ∃ i ∈ items, i.lenMin = 0 := by
  induction items using List.reverseRecOn with
  | nil => simp [addAll]
  | append_singleton items i ih =>
    have hinit := ih fun j hj => hok j (List.mem_append_left _ hj)
    unfold addAll at hinit ⊢
    rw [List.foldl_append, List.foldl_cons, List.foldl_nil, addItem_eq _ (hok i (by simp)),
      exists_mem_concat, ← hinit]
    simp

/-- The real nodes are those of the items. -/
theorem addAll_allReal (hok : ∀ i ∈ items, i.Ok) :
    (addAll items).root.AllReal fun e => ∃ i ∈ items, i.Adds ∧ i.key = e := by
  induction items using List.reverseRecOn with
  | nil => exact trivial
  | append_singleton items i ih =>
    have hinit := ih fun j hj => hok j (List.mem_append_left _ hj)
    unfold addAll at hinit ⊢
    rw [List.foldl_append, List.foldl_cons, List.foldl_nil]
    have hgrow := hinit.mono (Q := fun e => ∃ j ∈ items ++ [i], j.Adds ∧ j.key = e)
      fun e ⟨j, hj, he⟩ => ⟨j, List.mem_append_left _ hj, he⟩
    obtain ⟨-, hroot⟩ | ⟨hadds, hroot⟩ := addItem_root (items.foldl TrieRoot.addItem {})
      (hok i (by simp))
    · rwa [hroot]
    · rw [hroot]
      exact hgrow.addWalk (topBits_topBits_of_le le_rfl _) ⟨i, by simp, hadds, rfl⟩

/-- What the walk finds was added. -/
theorem mem_of_matchWalk (hok : ∀ i ∈ items, i.Ok) {q : BitVec fam.bits} {qlen : ℕ}
    (h : trieMatchWalk q qlen true (addAll items).root = true) :
    ∃ i ∈ items, i.Adds ∧ i.CoversLonger q qlen := by
  obtain ⟨x, hx⟩ := (matchWalk_longer q qlen _).mp h
  obtain ⟨hle, i, hi, hadds, hkey⟩ := (addAll_allReal hok).covers hx
  obtain ⟨htop, hlen⟩ := Prod.mk.inj hkey
  refine ⟨i, hi, hadds, ?_, hlen.le.trans hle⟩
  rw [htop, hlen]

/-- What is inside an item with a node is found if no item got lost. -/
theorem Holds.matchWalk_longer {th : TrieRoot fam} (h : Holds items th) {i : Item fam}
    (hi : i ∈ items) (hadds : i.Adds) {q : BitVec fam.bits} {qlen : ℕ}
    (hcov : i.CoversLonger q qlen) : trieMatchWalk q qlen true th.root = true := by
  have hkey : i.key = (topBits q i.len, i.len) := by rw [Item.key, hcov.1]
  obtain ⟨-, d, hd⟩ := (h.keys _).mpr ⟨i, hi, hadds, hkey⟩
  exact (Rpki.matchWalk_longer q qlen _).mpr
    ⟨(i.len, d), (mem_covers_iff h.wf).mpr ⟨hcov.2, hd⟩⟩

/-- What the default route needs: an item for it matches the route itself only if one of them
    has the length zero in its range, and an item that is no more than the flag needs other items
    that cover all addresses. -/
def DefaultSeen (items : List (Item fam)) : Prop :=
  ((∃ i ∈ items, i.len = 0) → ∃ i ∈ items, i.lenMin = 0) ∧
    ((∃ i ∈ items, ¬i.Adds) → ∀ b : Bool, ∃ i ∈ items, i.Adds ∧
      (i.len = 0 ∨ i.len = 1 ∧ i.addr.getMsbD 0 = b))

/-- `trie_match` with `orlonger` answers as the prefixes of the items say. -/
def LongerMeans (items : List (Item fam)) : Prop :=
  ∀ q : BitVec fam.bits, ∀ qlen ≤ fam.bits,
    (addAll items).match q qlen true = true ↔ ∃ i ∈ items, i.CoversLonger q qlen

theorem Item.Ok.len_eq_zero {i : Item fam} (h : i.Ok) (hmin : i.lenMin = 0) : i.len = 0 := by
  have := h.1
  omega

theorem coversLonger_of_len_eq_zero {i : Item fam} (h : i.len = 0) (q : BitVec fam.bits)
    (qlen : ℕ) : i.CoversLonger q qlen := by
  unfold Item.CoversLonger
  rw [h, topBits_zero, topBits_zero]
  exact ⟨rfl, Nat.zero_le _⟩

/-- An item of length at most one covers the addresses with its first bit. -/
theorem coversLonger_of_bit {i : Item fam} {q : BitVec fam.bits} {qlen : ℕ} (hpos : 1 ≤ qlen)
    (h : i.len = 0 ∨ i.len = 1 ∧ i.addr.getMsbD 0 = q.getMsbD 0) : i.CoversLonger q qlen := by
  rcases h with hlen | ⟨hlen, hbit⟩
  · exact coversLonger_of_len_eq_zero hlen q qlen
  · refine ⟨?_, hlen.le.trans hpos⟩
    rw [hlen]
    exact topBits_succ_iff.mpr ⟨by rw [topBits_zero, topBits_zero], hbit⟩

theorem Item.CoversLonger.bit {i : Item fam} {q : BitVec fam.bits} (h : i.CoversLonger q 1) :
    i.len = 0 ∨ i.len = 1 ∧ i.addr.getMsbD 0 = q.getMsbD 0 := by
  obtain ⟨htop, hle⟩ := h
  obtain hlen | hlen : i.len = 0 ∨ i.len = 1 := by omega
  · exact Or.inl hlen
  · rw [hlen] at htop
    exact Or.inr ⟨hlen, (topBits_succ_iff.mp htop).2⟩

/-- Whatever gets lost, the default route needs what it needs. -/
theorem defaultSeen_of_longer (hok : ∀ i ∈ items, i.Ok) (h : LongerMeans items) :
    DefaultSeen items := by
  constructor
  · rintro ⟨i, hi, hlen⟩
    have hmatch := (h 0 0 (Nat.zero_le _)).mpr ⟨i, hi, coversLonger_of_len_eq_zero hlen 0 0⟩
    rw [TrieRoot.match, if_pos rfl] at hmatch
    exact (addAll_matchDefault hok).mp hmatch
  · rintro ⟨i, hi, hno⟩ b
    have hlen : i.len = 0 := (hok i hi).len_eq_zero (not_not.mp hno).1
    have hbits := fam.one_lt_bits
    -- an address with the first bit
    obtain ⟨q, hq⟩ : ∃ q : BitVec fam.bits, q.getMsbD 0 = b := by
      cases b with
      | false => exact ⟨BitVec.ofNat fam.bits 0, BitVec.getMsbD_zero⟩
      | true =>
        refine ⟨setbit (BitVec.ofNat fam.bits 0) 0, ?_⟩
        rw [getMsbD_setbit _ (by omega)]
        simp
    have hmatch := (h q 1 hbits.le).mpr ⟨i, hi, coversLonger_of_len_eq_zero hlen q 1⟩
    rw [TrieRoot.match, if_neg Nat.one_ne_zero] at hmatch
    obtain ⟨j, hj, hadds, hcov⟩ := mem_of_matchWalk hok hmatch
    exact ⟨j, hj, hadds, hq ▸ hcov.bit⟩

/-- If nothing gets lost it needs no more. -/
theorem longer_of_defaultSeen (hok : ∀ i ∈ items, i.Ok) (hkept : ItemsKept items)
    (hseen : DefaultSeen items) : LongerMeans items := by
  intro q qlen _
  have hholds := addAll_holds_of_kept items hok hkept
  rw [TrieRoot.match]
  by_cases hq : qlen = 0
  · rw [if_pos hq, addAll_matchDefault hok]
    constructor
    · rintro ⟨i, hi, hmin⟩
      exact ⟨i, hi, coversLonger_of_len_eq_zero ((hok i hi).len_eq_zero hmin) q qlen⟩
    · rintro ⟨i, hi, -, hle⟩
      exact hseen.1 ⟨i, hi, by omega⟩
  · rw [if_neg hq]
    constructor
    · intro h
      obtain ⟨i, hi, -, hcov⟩ := mem_of_matchWalk hok h
      exact ⟨i, hi, hcov⟩
    · rintro ⟨i, hi, hcov⟩
      by_cases hadds : i.Adds
      · exact hholds.matchWalk_longer hi hadds hcov
      · obtain ⟨j, hj, hadds, hbit⟩ := hseen.2 ⟨i, hi, hadds⟩ (q.getMsbD 0)
        exact hholds.matchWalk_longer hj hadds (coversLonger_of_bit (by omega) hbit)

end Default

/-! ## Sets with addresses of both families -/

/-- The prefix of the item covers the prefix that is looked for. -/
def PrefixsetItem.CoversLonger (i : PrefixsetItem) (q : InetAddr) (qlen : ℕ) : Prop :=
  (match i.addr, q with
    | .v4 a, .v4 b => topBits a i.len = topBits b i.len
    | .v6 a, .v6 b => topBits a i.len = topBits b i.len
    | _, _ => False) ∧ i.len ≤ qlen

/-- `trie_match` with `orlonger` answers as the prefixes of the items say. -/
def MeansLonger (items : List PrefixsetItem) : Prop :=
  ∀ q : InetAddr, ∀ qlen ≤ q.bits,
    trieMatch (trieAddAll items) q qlen true = true ↔ ∃ i ∈ items, i.CoversLonger q qlen

/-- An item covers what it would match with the range from its own length on. -/
theorem PrefixsetItem.coversLonger_iff (i : PrefixsetItem) (q : InetAddr) (qlen : ℕ) :
    i.CoversLonger q qlen ↔ (⟨i.addr, i.len, i.len, qlen⟩ : PrefixsetItem).Covers q qlen := by
  unfold CoversLonger Covers
  exact and_congr_right fun _ => (and_iff_left le_rfl).symm

namespace Half

variable (half : Half fam)

theorem coversLonger_inj (i : PrefixsetItem) (a b : BitVec fam.bits) (qlen : ℕ)
    (ha : i.addr = half.inj a) : i.CoversLonger (half.inj b) qlen ↔
      (⟨a, i.len, i.lenMin, i.lenMax⟩ : Item fam).CoversLonger b qlen := by
  rw [i.coversLonger_iff, half.covers_inj ⟨i.addr, i.len, i.len, qlen⟩ a b qlen ha]
  exact and_congr_right fun _ => and_iff_left le_rfl

theorem exists_coversLonger_iff (l : List PrefixsetItem) (b : BitVec fam.bits) (qlen : ℕ) :
    (∃ i ∈ half.items l, i.CoversLonger b qlen) ↔ ∃ i ∈ l, i.CoversLonger (half.inj b) qlen := by
  unfold items
  simp only [List.mem_filterMap, Option.map_eq_some_iff]
  constructor
  · rintro ⟨_, ⟨i, hi, a, ha, rfl⟩, hcov⟩
    exact ⟨i, hi, (half.coversLonger_inj i a b qlen ((half.proj_eq_some _ _).mp ha)).mpr hcov⟩
  · rintro ⟨i, hi, hcov⟩
    cases ha : half.proj i.addr with
    | none =>
      have hno := half.covers_none ⟨i.addr, i.len, i.len, qlen⟩ b qlen ha
      exact absurd ((i.coversLonger_iff _ _).mp hcov) hno
    | some a =>
      exact ⟨_, ⟨i, hi, a, ha, rfl⟩,
        (half.coversLonger_inj i a b qlen ((half.proj_eq_some _ _).mp ha)).mp hcov⟩

/-- What the set says about the addresses of the family is what the half says. -/
theorem longerMeans_iff (l : List PrefixsetItem) :
    LongerMeans (half.items l) ↔ ∀ b : BitVec fam.bits, ∀ qlen ≤ (half.inj b).bits,
      trieMatch (trieAddAll l) (half.inj b) qlen true = true ↔
        ∃ i ∈ l, i.CoversLonger (half.inj b) qlen := by
  unfold LongerMeans
  simp only [half.bits_inj, half.match_inj, half.root_addAll, half.exists_coversLonger_iff]

end Half

theorem meansLonger_iff (items : List PrefixsetItem) :
    MeansLonger items ↔ LongerMeans (half4.items items) ∧ LongerMeans (half6.items items) := by
  rw [half4.longerMeans_iff, half6.longerMeans_iff]
  constructor
  · exact fun h => ⟨fun b => h (.v4 b), fun b => h (.v6 b)⟩
  · rintro ⟨h4, h6⟩ (b | b)
    · exact h4 b
    · exact h6 b

/-- With `or-longer` a set only means what its prefixes say if the items for the default route
    are seen, and then it does so if no item gets lost. -/
theorem orlonger_iff {items : List PrefixsetItem} (hok : ∀ i ∈ items, i.Ok) :
    (MeansLonger items → DefaultSeen (half4.items items) ∧ DefaultSeen (half6.items items)) ∧
      (ItemsKept (half4.items items) → ItemsKept (half6.items items) →
        (MeansLonger items ↔
          DefaultSeen (half4.items items) ∧ DefaultSeen (half6.items items))) := by
  rw [meansLonger_iff]
  have hok4 := half4.items_ok hok
  have hok6 := half6.items_ok hok
  have hneed : LongerMeans (half4.items items) ∧ LongerMeans (half6.items items) →
      DefaultSeen (half4.items items) ∧ DefaultSeen (half6.items items) :=
    fun h => ⟨defaultSeen_of_longer hok4 h.1, defaultSeen_of_longer hok6 h.2⟩
  refine ⟨hneed, fun hkept4 hkept6 => ⟨hneed, fun hseen => ?_⟩⟩
  exact ⟨longer_of_defaultSeen hok4 hkept4 hseen.1, longer_of_defaultSeen hok6 hkept6 hseen.2⟩

/-- The items 0.0.0.0/0 prefixlen 0 - 32 and 10.0.0.0/8. -/
theorem orlonger_iff_sample :
    MeansLonger [⟨.v4 0x0#32, 0, 0, 32⟩, ⟨.v4 0x0a000000#32, 8, 8, 8⟩] := by
  have hok : ∀ i ∈ [(⟨.v4 0x0#32, 0, 0, 32⟩ : PrefixsetItem), ⟨.v4 0x0a000000#32, 8, 8, 8⟩],
      i.Ok := by
    simp [PrefixsetItem.Ok, InetAddr.bits, inet]
  refine ((orlonger_iff hok).2 ?_ ?_).mpr ⟨⟨?_, ?_⟩, ?_, ?_⟩
  · show ItemsKept [(⟨0x0#32, 0, 0, 32⟩ : Item inet), ⟨0x0a000000#32, 8, 8, 8⟩]
    apply itemsKept_of_masked
    · simp only [List.forall_mem_cons, List.not_mem_nil, false_imp_iff, implies_true, and_true]
      have hmask : topBits (0x0a000000#32) 8 = 0x0a000000#32 := by decide
      exact ⟨topBits_zero _, hmask⟩
    · simp
  · show ItemsKept ([] : List (Item inet6))
    exact itemsKept_of_masked (by simp) List.Pairwise.nil
  · exact fun _ => ⟨⟨0x0#32, 0, 0, 32⟩, List.mem_cons_self, rfl⟩
  · exact fun _ b => ⟨⟨0x0#32, 0, 0, 32⟩, List.mem_cons_self, by simp [Item.Adds], Or.inl rfl⟩
  · rintro ⟨i, hi, -⟩
    cases hi
  · rintro ⟨i, hi, -⟩
    cases hi

/-- The item 0.0.0.0/0 without a range: 10.0.0.0/8 is inside it, but is not found. -/
theorem orlonger_default_unseen :
    ∃ items : List PrefixsetItem, (∀ i ∈ items, i.Ok) ∧
      items.Pairwise (fun a b => prefixsetCmp a b < 0) ∧ ¬MeansLonger items := by
  refine ⟨[⟨.v4 0x0#32, 0, 0, 0⟩], by simp [PrefixsetItem.Ok], List.pairwise_singleton _ _, ?_⟩
  intro h
  have hno : trieMatch (trieAddAll [⟨.v4 0x0#32, 0, 0, 0⟩]) (.v4 0x0a000000#32) 8 true =
      false := rfl
  have hiff := h (.v4 0x0a000000#32) 8 (by decide)
  rw [hno] at hiff
  refine Bool.false_ne_true (hiff.mpr ⟨_, List.mem_singleton_self _, ?_, Nat.zero_le _⟩)
  show topBits (0x0#32) 0 = topBits (0x0a000000#32) 0
  rw [topBits_zero, topBits_zero]

end Bgpd.Rpki
