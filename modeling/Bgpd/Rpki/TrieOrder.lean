import Bgpd.Rpki.PrefixSetLost
import Bgpd.Rpki.Tables
import Bgpd.Rpki.RoaSet
import Bgpd.Rpki.TrieCanon

/-!
# The Order of Insertion

The tries of the same items in two orders, and what `trie_equal` says of them. For prefix sets
the data of a node is the union of the ranges, and for ROAs a sorted table with the largest
length of each AS, so that no order can be seen in the data. It can be seen in the nodes if a
prefix comes behind one inside it at another address.

## Main results

- `addAll_perm_iff`, `roaAll_perm_iff`: one address family
- `trie_order_iff`: the lists for which the order of insertion does not matter
-/

namespace Bgpd.Rpki

open Bgpd.Lib

variable {fam : Family}

/-! ## Prefix sets -/

section Prefixes

variable {items items' : List (Item fam)}

instance (i : Item fam) : Decidable i.Ok := inferInstanceAs (Decidable (_ ∧ _ ∧ _))

/-- The prefixes for which `trie_add` makes nodes. -/
def NodeKey (items : List (Item fam)) (e : BitVec fam.bits × ℕ) : Prop :=
  ∃ i ∈ items, i.Ok ∧ i.Adds ∧ i.key = e

/-- `trie_add` returns -1 and makes no node. -/
theorem addItem_root_of_not_ok (th : TrieRoot fam) {i : Item fam} (hi : ¬i.Ok) :
    (th.addItem i).root = th.root := by
  unfold TrieRoot.addItem TrieRoot.add
  by_cases hle : i.len > i.lenMin ∨ i.lenMin > i.lenMax
  · rw [if_pos hle]
  · have hmax : i.lenMax > fam.bits := by
      by_contra hmax
      exact hi ⟨by omega, by omega, by omega⟩
    have hdef : ¬(i.lenMin = 0 ∧ i.lenMax = 0) := by omega
    simp only [if_neg hle, if_neg hdef, if_pos hmax]
    split <;> rfl

/-- The flag is set for any item that has the length zero in its range. -/
theorem addItem_matchDefault (th : TrieRoot fam) (i : Item fam) :
    (th.addItem i).matchDefault =
      (th.matchDefault || decide (i.len ≤ i.lenMin ∧ i.lenMin ≤ i.lenMax ∧ i.lenMin = 0)) := by
  unfold TrieRoot.addItem TrieRoot.add
  by_cases hle : i.len > i.lenMin ∨ i.lenMin > i.lenMax
  · rw [if_pos hle, decide_eq_false (by omega), Bool.or_false]
  · rw [if_neg hle]
    by_cases hmin : i.lenMin = 0
    · rw [decide_eq_true (by omega), Bool.or_true, if_pos hmin]
      split
      · rfl
      · split <;> rfl
    · rw [decide_eq_false (by omega), Bool.or_false, if_neg hmin]
      split
      · rfl
      · split <;> rfl

theorem addAll_matchDefault_iff : (addAll items).matchDefault = true ↔
    ∃ i ∈ items, i.len ≤ i.lenMin ∧ i.lenMin ≤ i.lenMax ∧ i.lenMin = 0 := by
  induction items using List.reverseRecOn with
  | nil => simp [addAll]
  | append_singleton items i ih =>
    unfold addAll at ih ⊢
    rw [List.foldl_append, List.foldl_cons, List.foldl_nil, addItem_matchDefault,
      exists_mem_concat, ← ih, Bool.or_eq_true, decide_eq_true_iff]

/-- Items that are not accepted can be left out, and the nodes do not depend on the flag. -/
theorem addAll_root_filter (items : List (Item fam)) :
    (addAll items).root = (addAll (items.filter fun i => decide i.Ok)).root := by
  have main : ∀ th th' : TrieRoot fam, th.root = th'.root →
      (items.foldl TrieRoot.addItem th).root =
        ((items.filter fun i => decide i.Ok).foldl TrieRoot.addItem th').root := by
    induction items with
    | nil => exact fun th th' h => h
    | cons i items ih =>
      intro th th' h
      by_cases hi : i.Ok
      · simp only [List.filter_cons, hi, decide_true, if_true, List.foldl_cons]
        apply ih
        rw [addItem_eq th hi, addItem_eq th' hi, h]
      · simp only [List.filter_cons, hi, decide_false, Bool.false_eq_true, if_false,
          List.foldl_cons]
        exact ih _ _ ((addItem_root_of_not_ok th hi).trans h)
  exact main {} {} rfl

theorem ok_of_mem_filter {i : Item fam} (h : i ∈ items.filter fun i => decide i.Ok) : i.Ok :=
  of_decide_eq_true (List.mem_filter.mp h).2

/-- Tries that hold the same items have the same map. -/
theorem Holds.sameMap {th th' : TrieRoot fam} (h : Holds items th) (h' : Holds items' th')
    (hmem : ∀ i, i ∈ items ↔ i ∈ items') : th.root.SameMap th'.root := by
  have hiff : ∀ P : Item fam → Prop, (∃ i ∈ items, P i) ↔ ∃ i ∈ items', P i :=
    fun P => exists_congr fun i => and_congr_left fun _ => hmem i
  refine Trie.sameMap_of_keys (fun e => ?_) fun e d d' he hd hd' => ?_
  · rw [h.keys, h'.keys, hiff]
  · apply eq_of_msb
    intro b _
    rw [Bool.eq_iff_iff, h.range e d he hd, h'.range e d' he hd', hiff]

/-- No order of the items loses one of them. -/
theorem itemsKept_of_aligned (h : KeysAligned (NodeKey items)) (hok : ∀ i ∈ items, i.Ok) :
    ItemsKept items := by
  rintro l i l' rfl hadds
  refine not_lost_of_aligned h (fun e => ?_) ⟨i, by simp, hok i (by simp), hadds, rfl⟩
    (topBits_topBits_of_le le_rfl _)
  rintro ⟨j, hj, hj', he⟩
  exact ⟨j, List.mem_append_left _ hj, hok j (List.mem_append_left _ hj), hj', he⟩

theorem itemsKept_of_keyLe (h : items.Pairwise fun a b => keyLe a.key b.key) : ItemsKept items := by
  rintro l i l' rfl -
  apply not_lost_of_keyLe
  rintro e ⟨j, hj, -, rfl⟩
  exact (List.pairwise_append.mp h).2.2 j hj i List.mem_cons_self

theorem addAll_root_perm (h : KeysAligned (NodeKey items)) (hperm : items'.Perm items) :
    (addAll items').root = (addAll items).root := by
  have hkept : ∀ l : List (Item fam), l.Perm items →
      Holds (l.filter fun i => decide i.Ok) (addAll (l.filter fun i => decide i.Ok)) := by
    intro l hl
    apply addAll_holds_of_kept _ fun i hi => ok_of_mem_filter hi
    refine itemsKept_of_aligned (fun p e hp he => h p e ?_ ?_) fun i hi => ok_of_mem_filter hi
    · obtain ⟨i, hi, hrest⟩ := hp
      exact ⟨i, hl.mem_iff.mp (List.mem_filter.mp hi).1, hrest⟩
    · obtain ⟨i, hi, hrest⟩ := he
      exact ⟨i, hl.mem_iff.mp (List.mem_filter.mp hi).1, hrest⟩
  rw [addAll_root_filter items', addAll_root_filter items]
  have h₁ := hkept items' hperm
  have h₂ := hkept items (List.Perm.refl _)
  exact h₁.wf.ext h₂.wf (h₁.sameMap h₂ fun i => (hperm.filter _).mem_iff)

/-- What goes wrong in a prefix set stays wrong. -/
theorem misplaced_foldl {th : TrieRoot fam} (h : th.root.Misplaced) :
    (items.foldl TrieRoot.addItem th).root.Misplaced := by
  induction items generalizing th with
  | nil => exact h
  | cons i items ih =>
    apply ih
    by_cases hi : i.Ok
    · obtain ⟨-, hroot⟩ | ⟨-, hroot⟩ := addItem_root th hi
      · rwa [hroot]
      · rw [hroot]
        exact h.addWalk
    · rwa [addItem_root_of_not_ok th hi]

/-- For one address family: the order of the items does not matter iff of two prefixes, one
    inside the other, both have the same address. -/
theorem addAll_perm_iff (items : List (Item fam)) :
    (∀ items', items'.Perm items → addAll items' = addAll items) ↔ KeysAligned (NodeKey items) := by
  constructor
  · rintro h p e ⟨i, hi, hiok, hiadds, rfl⟩ ⟨j, hj, hjok, hjadds, rfl⟩ hin
    by_contra hne
    -- in the order of the prefixes nothing goes wrong
    obtain ⟨sorted, hperm, hsorted⟩ := exists_perm_keyLe Item.key items
    have hwf : (addAll sorted).root.Wf := by
      rw [addAll_root_filter]
      exact (addAll_holds_of_kept _ (fun i hi => ok_of_mem_filter hi)
        (itemsKept_of_keyLe (hsorted.filter _))).wf
    -- with the longer prefix first it does
    have hij : j ≠ i := by
      rintro rfl
      exact hne rfl
    obtain ⟨rest, hpair⟩ := exists_perm_pair hj hi hij
    have hbad : (addAll (j :: i :: rest)).root.Misplaced := by
      show (rest.foldl TrieRoot.addItem ((({} : TrieRoot fam).addItem j).addItem i)).root.Misplaced
      apply misplaced_foldl
      obtain ⟨hno, -⟩ | ⟨-, hroot⟩ := addItem_root (({} : TrieRoot fam).addItem j) hiok
      · exact absurd hiadds hno
      obtain ⟨hno, -⟩ | ⟨-, hroot'⟩ := addItem_root ({} : TrieRoot fam) hjok
      · exact absurd hjadds hno
      rw [hroot, hroot']
      exact misplaced_pair (topBits_topBits_of_le le_rfl _) hin hne
    rw [h _ hpair, ← h _ hperm] at hbad
    exact hwf.not_misplaced hbad
  · intro h items' hperm
    have hdflt : (addAll items').matchDefault = (addAll items).matchDefault := by
      rw [Bool.eq_iff_iff, addAll_matchDefault_iff, addAll_matchDefault_iff]
      exact exists_congr fun i => and_congr_left fun _ => hperm.mem_iff
    have hroot := addAll_root_perm h hperm
    cases hx : addAll items'
    cases hy : addAll items
    rw [hx, hy] at hdflt hroot
    exact congrArg₂ TrieRoot.mk hroot hdflt

end Prefixes

/-! ## ROAs -/

section Table

variable {set set' : SetTable} {asnum maxlen : ℕ}

/-- The table exists and is sorted by the AS. -/
structure SetTable.Prepped (set : SetTable) : Prop where
  isSome : set.isSome
  sorted : set.elems.Pairwise fun a b => a.as ≤ b.as

theorem roaMerge_prepped (h : set.elems.Pairwise fun a b => a.as ≤ b.as) :
    (roaMerge asnum maxlen set).Prepped := by
  constructor
  · unfold roaMerge
    dsimp only
    split
    · split <;> rfl
    · rfl
  · cases hm : setMatch set asnum with
    | none =>
      have hm : setMatch (some (set.getD [])) asnum = none := by
        rw [setMatch_eq] at hm ⊢
        exact hm
      simp only [roaMerge, hm]
      have : Std.Total fun a b : RoaSet => a.as ≤ b.as := ⟨fun a b => Nat.le_total a.as b.as⟩
      have : IsTrans RoaSet fun a b => a.as ≤ b.as := ⟨fun a b c => Nat.le_trans⟩
      exact List.pairwise_insertionSort _ _
    | some rs =>
      rw [roaMerge_of_some hm]
      split
      · rw [List.pairwise_map]
        apply h.imp
        intro a b hab
        split <;> split <;> exact hab
      · exact h

/-- An element that allows as much as the largest one for its AS is this one. -/
theorem mem_of_allows (hk : set.Keyed) (h : ∀ as n, set.Allows as n ↔ set'.Allows as n)
    {rs : RoaSet} (hrs : rs ∈ set.elems) : rs ∈ set'.elems := by
  obtain ⟨rs', hmem', has', hle'⟩ := (h rs.as rs.maxlen).mp ⟨rs, hrs, rfl, le_rfl⟩
  obtain ⟨rs'', hmem'', has'', hle''⟩ := (h rs'.as rs'.maxlen).mpr ⟨rs', hmem', rfl, le_rfl⟩
  obtain rfl : rs'' = rs := List.inj_on_of_nodup_map hk hmem'' hrs (has''.trans has')
  have hmax : rs'.maxlen = rs''.maxlen := le_antisymm hle'' hle'
  obtain ⟨as, n⟩ := rs'
  obtain ⟨as'', n''⟩ := rs''
  cases has'
  cases hmax
  exact hmem'

/-- Sorted tables that allow the same are the same. -/
theorem SetTable.Prepped.ext (h : set.Prepped) (h' : set'.Prepped) (hk : set.Keyed)
    (hk' : set'.Keyed) (hallows : ∀ as n, set.Allows as n ↔ set'.Allows as n) : set = set' := by
  have hmem : ∀ rs, rs ∈ set.elems ↔ rs ∈ set'.elems := fun rs =>
    ⟨mem_of_allows hk hallows, mem_of_allows hk' fun as n => (hallows as n).symm⟩
  have hperm : set.elems.Perm set'.elems :=
    (List.perm_ext_iff_of_nodup hk.of_map hk'.of_map).mpr hmem
  have heq : set.elems = set'.elems := by
    apply List.Perm.eq_of_pairwise _ h.sorted h'.sorted hperm
    intro a b ha hb hab hba
    exact List.inj_on_of_nodup_map hk ha ((hmem b).mpr hb) (le_antisymm hab hba)
  obtain ⟨l, rfl⟩ := Option.isSome_iff_exists.mp h.isSome
  obtain ⟨l', rfl⟩ := Option.isSome_iff_exists.mp h'.isSome
  exact congrArg some heq

end Table

section Roas

variable {roas roas' : List (Roa fam)} {t : Trie fam.bits SetTable}

/-- `trie_roa_add` for all ROAs of a family. One that is not accepted is only reported. -/
def roaAll (roas : List (Roa fam)) : Trie fam.bits SetTable :=
  roas.foldl (fun t r => (roaAdd t r).getD t) .nil

/-- The prefixes for which `trie_roa_add` makes nodes. -/
def RoaKey (roas : List (Roa fam)) (e : BitVec fam.bits × ℕ) : Prop :=
  ∃ r ∈ roas, r.prefixlen ≤ fam.bits ∧ r.key = e

theorem roaAdd_getD (t : Trie fam.bits SetTable) (r : Roa fam) :
    (roaAdd t r).getD t = if r.prefixlen ≤ fam.bits then
      trieAddNode fam (roaMerge r.asnum r.maxlen) r.addr r.prefixlen t else t := by
  unfold roaAdd
  by_cases h : r.prefixlen ≤ fam.bits
  · rw [if_neg (by omega), if_pos h]
    rfl
  · rw [if_pos (by omega), if_neg h]
    rfl

/-- ROAs that are not accepted can be left out. -/
theorem roaAll_filter (roas : List (Roa fam)) :
    roaAll roas = roaAll (roas.filter fun r => r.prefixlen ≤ fam.bits) := by
  unfold roaAll
  generalize (Trie.nil : Trie fam.bits SetTable) = t
  induction roas generalizing t with
  | nil => rfl
  | cons r roas ih =>
    by_cases h : r.prefixlen ≤ fam.bits
    · simp only [List.filter_cons, h, decide_true, if_true, List.foldl_cons]
      exact ih _
    · simp only [List.filter_cons, h, decide_false, Bool.false_eq_true, if_false, List.foldl_cons]
      rw [ih, roaAdd_getD, if_neg h]

/-- If no ROA gets lost, the trie holds them, with sorted tables. -/
theorem roaAll_holds_prepped (hlen : ∀ r ∈ roas, r.prefixlen ≤ fam.bits) (hkept : RoasKept roas) :
    RoaHolds roas (roaAll roas) ∧ ∀ (e : BitVec fam.bits × ℕ) d, topBits e.1 e.2 = e.1 →
      (roaAll roas).get e.1 e.2 = some d → d.Prepped := by
  induction roas using List.reverseRecOn with
  | nil => exact ⟨RoaHolds.nil, fun e d _ hd => nomatch hd⟩
  | append_singleton roas r ih =>
    have hinit : RoasKept roas := by
      intro l r' l' heq
      refine hkept l r' (l' ++ [r]) ?_
      rw [heq, List.append_assoc, List.cons_append]
    obtain ⟨h, hprep⟩ := ih (fun r hr => hlen r (List.mem_append_left _ hr)) hinit
    have hmask : topBits (topBits r.addr r.prefixlen) r.prefixlen = topBits r.addr r.prefixlen :=
      topBits_topBits_of_le le_rfl _
    have hadd : (roaAll roas).AddOk (topBits r.addr r.prefixlen) r.prefixlen := by
      rw [addOk_iff h.wf hmask, show (roaAll roas).Key = _ from funext fun e => propext (h.keys e)]
      exact hkept roas r [] rfl
    have hr := hlen r (by simp)
    obtain ⟨t', ht', h'⟩ := h.add hr hadd
    have hlast : roaAll (roas ++ [r]) = (roaAdd (roaAll roas) r).getD (roaAll roas) := by
      unfold roaAll
      rw [List.foldl_append]
      rfl
    refine ⟨by rwa [hlast, ht'], fun e d he hd => ?_⟩
    rw [hlast, roaAdd_getD, if_pos hr] at hd
    have hspec : AddSpec (roaMerge r.asnum r.maxlen) _ _ (roaAll roas) _ :=
      addWalk_spec h.wf hmask hr hadd
    unfold trieAddNode at hd
    rw [hspec.get _ _ he] at hd
    split at hd
    · cases hd
      apply roaMerge_prepped
      cases hold : (roaAll roas).get (topBits r.addr r.prefixlen) r.prefixlen with
      | none => exact List.Pairwise.nil
      | some d' => exact (hprep (_, _) d' hmask hold).sorted
    · exact hprep e d he hd

theorem roasKept_of_aligned (h : KeysAligned (RoaKey roas))
    (hlen : ∀ r ∈ roas, r.prefixlen ≤ fam.bits) : RoasKept roas := by
  rintro l r l' rfl
  refine not_lost_of_aligned h (fun e => ?_) ⟨r, by simp, hlen r (by simp), rfl⟩
    (topBits_topBits_of_le le_rfl _)
  rintro ⟨r', hr', he⟩
  exact ⟨r', List.mem_append_left _ hr', hlen r' (List.mem_append_left _ hr'), he⟩

theorem roasKept_of_keyLe (h : roas.Pairwise fun a b => keyLe a.key b.key) : RoasKept roas := by
  rintro l r l' rfl
  apply not_lost_of_keyLe
  rintro e ⟨r', hr', rfl⟩
  exact (List.pairwise_append.mp h).2.2 r' hr' r List.mem_cons_self

theorem le_of_mem_filter {r : Roa fam}
    (h : r ∈ roas.filter fun r => decide (r.prefixlen ≤ fam.bits)) : r.prefixlen ≤ fam.bits :=
  of_decide_eq_true (List.mem_filter.mp h).2

/-- With aligned keys the order of insertion does not matter. -/
theorem roaAll_perm (h : KeysAligned (RoaKey roas)) (hperm : roas'.Perm roas) :
    roaAll roas' = roaAll roas := by
  have hkept : ∀ l : List (Roa fam), l.Perm roas →
      RoasKept (l.filter fun r => r.prefixlen ≤ fam.bits) := by
    intro l hl
    refine roasKept_of_aligned (fun p e hp he => h p e ?_ ?_) fun r hr => le_of_mem_filter hr
    · obtain ⟨r, hr, hrest⟩ := hp
      exact ⟨r, hl.mem_iff.mp (List.mem_filter.mp hr).1, hrest⟩
    · obtain ⟨r, hr, hrest⟩ := he
      exact ⟨r, hl.mem_iff.mp (List.mem_filter.mp hr).1, hrest⟩
  rw [roaAll_filter roas', roaAll_filter roas]
  obtain ⟨h₁, hprep₁⟩ := roaAll_holds_prepped (fun r hr => le_of_mem_filter hr) (hkept _ hperm)
  obtain ⟨h₂, hprep₂⟩ := roaAll_holds_prepped (fun r hr => le_of_mem_filter hr)
    (hkept _ (List.Perm.refl roas))
  have hiff : ∀ P : Roa fam → Prop,
      (∃ r ∈ roas'.filter fun r => decide (r.prefixlen ≤ fam.bits), P r) ↔
        ∃ r ∈ roas.filter fun r => decide (r.prefixlen ≤ fam.bits), P r :=
    fun P => exists_congr fun r => and_congr_left fun _ => (hperm.filter _).mem_iff
  apply h₁.wf.ext h₂.wf
  refine Trie.sameMap_of_keys (fun e => ?_) fun e d d' he hd hd' => ?_
  · rw [h₁.keys, h₂.keys, hiff]
  · apply (hprep₁ e d he hd).ext (hprep₂ e d' he hd') (h₁.keyed e d he hd) (h₂.keyed e d' he hd')
    intro as n
    rw [h₁.allows e d he hd, h₂.allows e d' he hd', hiff]

/-- What goes wrong in a ROA set stays wrong. -/
theorem roa_misplaced_foldl (h : t.Misplaced) :
    (roas.foldl (fun t r => (roaAdd t r).getD t) t).Misplaced := by
  induction roas generalizing t with
  | nil => exact h
  | cons r roas ih =>
    apply ih
    show ((roaAdd t r).getD t).Misplaced
    rw [roaAdd_getD]
    split
    · exact h.addWalk
    · exact h

/-- The same for ROAs. -/
theorem roaAll_perm_iff (roas : List (Roa fam)) :
    (∀ roas', roas'.Perm roas → roaAll roas' = roaAll roas) ↔ KeysAligned (RoaKey roas) := by
  constructor
  · rintro h p e ⟨r, hr, hrlen, rfl⟩ ⟨s, hs, hslen, rfl⟩ hin
    by_contra hne
    obtain ⟨sorted, hperm, hsorted⟩ := exists_perm_keyLe Roa.key roas
    have hwf : (roaAll sorted).Wf := by
      rw [roaAll_filter]
      exact (roaAll_holds_prepped (fun r hr => le_of_mem_filter hr)
        (roasKept_of_keyLe (hsorted.filter _))).1.wf
    have hsr : s ≠ r := by
      rintro rfl
      exact hne rfl
    obtain ⟨rest, hpair⟩ := exists_perm_pair hs hr hsr
    have hbad : (roaAll (s :: r :: rest)).Misplaced := by
      rw [roaAll, List.foldl_cons, List.foldl_cons]
      apply roa_misplaced_foldl
      rw [roaAdd_getD, if_pos hrlen, roaAdd_getD, if_pos hslen]
      exact misplaced_pair (topBits_topBits_of_le le_rfl _) hin hne
    rw [h _ hpair, ← h _ hperm] at hbad
    exact hwf.not_misplaced hbad
  · exact fun h roas' hperm => roaAll_perm h hperm

end Roas

/-! ## Both families -/

/-- `trie_equal_v4` and `trie_equal_v6` for nodes without a set. -/
def trieMaskEqual {w : ℕ} : Trie w (BitVec w) → Trie w (BitVec w) → Bool
  | .nil, .nil => true
  | .node addr plen real plenmask trie0 trie1, .node addr' plen' real' plenmask' trie0' trie1' =>
    decide (addr = addr' ∧ plen = plen' ∧ real = real' ∧ plenmask = plenmask') &&
      trieMaskEqual trie0 trie0' && trieMaskEqual trie1 trie1'
  | _, _ => false

/-- `trie_equal` of prefix sets -/
def TrieHead.equal (a b : TrieHead) : Bool :=
  if a.v4.matchDefault ≠ b.v4.matchDefault ∨ a.v6.matchDefault ≠ b.v6.matchDefault then false
  else if trieMaskEqual a.v4.root b.v4.root = false then false
  else if trieMaskEqual a.v6.root b.v6.root = false then false
  else true

theorem trieMaskEqual_iff {w : ℕ} {a b : Trie w (BitVec w)} : trieMaskEqual a b = true ↔ a = b := by
  induction a generalizing b with
  | nil => cases b <;> simp [trieMaskEqual]
  | node addr plen real plenmask trie0 trie1 ih0 ih1 =>
    cases b with
    | nil => simp [trieMaskEqual]
    | node addr' plen' real' plenmask' trie0' trie1' =>
      simp only [trieMaskEqual, Bool.and_eq_true, decide_eq_true_eq, ih0, ih1, Trie.node.injEq,
        and_assoc]

theorem TrieHead.equal_iff {a b : TrieHead} : a.equal b = true ↔ a = b := by
  obtain ⟨⟨r4, d4⟩, ⟨r6, d6⟩⟩ := a
  obtain ⟨⟨r4', d4'⟩, ⟨r6', d6'⟩⟩ := b
  unfold TrieHead.equal
  simp only [ne_eq, ← Bool.not_eq_true, trieMaskEqual_iff, TrieHead.mk.injEq, TrieRoot.mk.injEq]
  by_cases h4 : d4 = d4' <;> by_cases h6 : d6 = d6' <;> simp [h4, h6]

/-- The tries of the items in any other order answer the same, and `trie_equal` says so. -/
def OrderFree (items : List PrefixsetItem) : Prop :=
  ∀ items', items'.Perm items →
    (∀ q qlen orlonger, trieMatch (trieAddAll items') q qlen orlonger =
      trieMatch (trieAddAll items) q qlen orlonger) ∧
      (trieAddAll items').equal (trieAddAll items) = true

/-- The tries of the ROAs in any other order answer the same, and `trie_equal` says so. -/
def RoaOrderFree (roas : List AnyRoa) : Prop :=
  ∀ roas', roas'.Perm roas →
    (∀ q plen as, trieRoaCheck (roaTable roas') q plen as =
      trieRoaCheck (roaTable roas) q plen as) ∧
      trieEqual (roaTable roas') (roaTable roas) = true

theorem orderFree_iff (items : List PrefixsetItem) :
    OrderFree items ↔ ∀ items', items'.Perm items → trieAddAll items' = trieAddAll items := by
  refine forall_congr' fun items' => imp_congr_right fun _ => ?_
  rw [TrieHead.equal_iff]
  exact ⟨fun h => h.2, fun h => ⟨fun q qlen orlonger => by rw [h], h⟩⟩

theorem roaOrderFree_iff (roas : List AnyRoa) :
    RoaOrderFree roas ↔ ∀ roas', roas'.Perm roas → roaTable roas' = roaTable roas := by
  refine forall_congr' fun roas' => imp_congr_right fun _ => ?_
  rw [trieEqual_iff]
  exact ⟨fun h => h.2, fun h => ⟨fun q plen as => by rw [h], h⟩⟩

/-- The two halves of a prefix set in all orders. -/
theorem perm_iff_halves (items : List PrefixsetItem) :
    (∀ items', items'.Perm items → trieAddAll items' = trieAddAll items) ↔
      KeysAligned (NodeKey (half4.items items)) ∧ KeysAligned (NodeKey (half6.items items)) := by
  have hhalf : ∀ {fam : Family} (half : Half fam),
      (∀ items', items'.Perm items → trieAddAll items' = trieAddAll items) →
        KeysAligned (NodeKey (half.items items)) := by
    intro fam half h
    rw [← addAll_perm_iff]
    intro l hl
    obtain ⟨items', hperm, rfl⟩ := exists_perm_filterMap _ hl
    have := congrArg half.root (h items' hperm)
    rwa [half.root_addAll, half.root_addAll] at this
  refine ⟨fun h => ⟨hhalf half4 h, hhalf half6 h⟩, fun ⟨h4, h6⟩ items' hperm => ?_⟩
  have hv4 : (trieAddAll items').v4 = (trieAddAll items).v4 := by
    show half4.root _ = half4.root _
    rw [half4.root_addAll, half4.root_addAll]
    exact (addAll_perm_iff _).mpr h4 _ (hperm.filterMap _)
  have hv6 : (trieAddAll items').v6 = (trieAddAll items).v6 := by
    show half6.root _ = half6.root _
    rw [half6.root_addAll, half6.root_addAll]
    exact (addAll_perm_iff _).mpr h6 _ (hperm.filterMap _)
  exact congrArg₂ TrieHead.mk hv4 hv6

/-- The two halves of a ROA table are filled independently. -/
theorem roaTable_halves (roas : List AnyRoa) :
    roaTable roas = ⟨roaAll (roas4 roas), roaAll (roas6 roas)⟩ := by
  have main : ∀ th : RoaHead, roas.foldl (fun th roa => (trieRoaAdd th roa).getD th) th =
      ⟨(roas4 roas).foldl (fun t r => (roaAdd t r).getD t) th.v4,
        (roas6 roas).foldl (fun t r => (roaAdd t r).getD t) th.v6⟩ := by
    induction roas with
    | nil => exact fun th => rfl
    | cons r roas ih =>
      intro th
      rw [List.foldl_cons, ih]
      cases r with
      | v4 r =>
        have hadd : (trieRoaAdd th (.v4 r)).getD th =
            { th with v4 := (roaAdd th.v4 r).getD th.v4 } := by
          show ((roaAdd th.v4 r).map _).getD th = _
          cases roaAdd th.v4 r <;> rfl
        rw [hadd]
        rfl
      | v6 r =>
        have hadd : (trieRoaAdd th (.v6 r)).getD th =
            { th with v6 := (roaAdd th.v6 r).getD th.v6 } := by
          show ((roaAdd th.v6 r).map _).getD th = _
          cases roaAdd th.v6 r <;> rfl
        rw [hadd]
        rfl
  exact main {}

theorem roa_perm_iff_halves (roas : List AnyRoa) :
    (∀ roas', roas'.Perm roas → roaTable roas' = roaTable roas) ↔
      KeysAligned (RoaKey (roas4 roas)) ∧ KeysAligned (RoaKey (roas6 roas)) := by
  rw [← roaAll_perm_iff, ← roaAll_perm_iff]
  simp only [roaTable_halves, RoaHead.mk.injEq]
  constructor
  · intro h
    constructor
    · intro l hl
      obtain ⟨roas', hperm, rfl⟩ := exists_perm_filterMap _ hl
      exact (h roas' hperm).1
    · intro l hl
      obtain ⟨roas', hperm, rfl⟩ := exists_perm_filterMap _ hl
      exact (h roas' hperm).2
  · exact fun ⟨h4, h6⟩ roas' hperm => ⟨h4 _ (hperm.filterMap _), h6 _ (hperm.filterMap _)⟩

/-- The order of insertion does not matter for a prefix or ROA set iff no prefix of a family that
    gets a node is inside another one at another address. Whatever the order was, tries that
    `trie_equal` calls equal answer the same. -/
theorem trie_order_iff (items : List PrefixsetItem) (roas : List AnyRoa) :
    (OrderFree items ↔
        KeysAligned (NodeKey (half4.items items)) ∧ KeysAligned (NodeKey (half6.items items))) ∧
      (RoaOrderFree roas ↔ KeysAligned (RoaKey (roas4 roas)) ∧ KeysAligned (RoaKey (roas6 roas))) ∧
      (∀ a b : TrieHead, a.equal b = true → ∀ q qlen orlonger,
        trieMatch a q qlen orlonger = trieMatch b q qlen orlonger) ∧
      (∀ a b : RoaHead, trieEqual a b = true → ∀ q plen as,
        trieRoaCheck a q plen as = trieRoaCheck b q plen as) := by
  refine ⟨(orderFree_iff items).trans (perm_iff_halves items),
    (roaOrderFree_iff roas).trans (roa_perm_iff_halves roas), fun a b h q qlen orlonger => ?_,
    fun a b h q plen as => ?_⟩
  · rw [TrieHead.equal_iff.mp h]
  · rw [trieEqual_iff.mp h]

/-- 10.1.0.0/16 before 10.0.0.0/8 prefixlen 8 - 32: the second item does not match 10.5.0.0/16,
    which it does in the other order. -/
theorem order_seen : ¬∀ items, OrderFree items := by
  intro h
  have hmatch := (h [⟨.v4 0x0a000000#32, 8, 8, 32⟩, ⟨.v4 0x0a010000#32, 16, 16, 16⟩]
    [⟨.v4 0x0a010000#32, 16, 16, 16⟩, ⟨.v4 0x0a000000#32, 8, 8, 32⟩]
    (List.Perm.swap _ _ _)).1 (.v4 0x0a050000#32) 16 false
  have hno : trieMatch (trieAddAll [⟨.v4 0x0a010000#32, 16, 16, 16⟩, ⟨.v4 0x0a000000#32, 8, 8, 32⟩])
      (.v4 0x0a050000#32) 16 false = false := by decide +kernel
  have hyes :
      trieMatch (trieAddAll [⟨.v4 0x0a000000#32, 8, 8, 32⟩, ⟨.v4 0x0a010000#32, 16, 16, 16⟩])
      (.v4 0x0a050000#32) 16 false = true := by decide +kernel
  rw [hno, hyes] at hmatch
  exact Bool.false_ne_true hmatch

end Bgpd.Rpki
