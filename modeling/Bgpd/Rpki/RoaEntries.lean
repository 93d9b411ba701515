import Bgpd.Lib.RbTree
import Bgpd.Rpki.RoaSet
import Bgpd.Rpki.Tables
import Mathlib.Data.Prod.Lex

/-!
# Entries of a ROA Table

What is in the table of the RDE: for each prefix and AS the largest length of the ROAs that were
added. The mask is applied to the addresses.

## Main results

- `RoaHolds.hasRoa_iff`: the entries for one family
- `roaTable_entry_iff`: the entries of a table that no ROA gets lost in
-/

namespace Bgpd.Rpki

open Bgpd.Lib

/-! ## One family -/

section Family

variable {fam : Family}

/-- The ROA with the mask applied to its address. -/
def Roa.masked (r : Roa fam) : Roa fam := { r with addr := topBits r.addr r.prefixlen }

/-- The ROA is in the table that is kept for its prefix. -/
def Trie.HasRoa (t : Trie fam.bits SetTable) (r : Roa fam) : Prop :=
  topBits r.addr r.prefixlen = r.addr ∧
    ∃ d, t.get r.addr r.prefixlen = some d ∧ ⟨r.asnum, r.maxlen⟩ ∈ d.elems

theorem Roa.masked_eq_iff {r r' : Roa fam} :
    r'.masked = r ↔
      r'.key = (r.addr, r.prefixlen) ∧ r'.asnum = r.asnum ∧ r'.maxlen = r.maxlen := by
  obtain ⟨a, len, max, as⟩ := r
  obtain ⟨a', len', max', as'⟩ := r'
  unfold Roa.masked Roa.key
  simp only [Roa.mk.injEq, Prod.mk.injEq]
  tauto

variable {roas : List (Roa fam)} {t : Trie fam.bits SetTable}

/-- An element of the table of a prefix has the largest length for its AS. -/
theorem RoaHolds.mem_elems_iff (h : RoaHolds roas t) {e : BitVec fam.bits × ℕ}
    (he : topBits e.1 e.2 = e.1) {d : SetTable} (hd : t.get e.1 e.2 = some d) {as n : ℕ} :
    ⟨as, n⟩ ∈ d.elems ↔ (∃ r ∈ roas, r.key = e ∧ r.asnum = as ∧ r.maxlen = n) ∧
      ∀ r ∈ roas, r.key = e → r.asnum = as → r.maxlen ≤ n := by
  have hallows := h.allows e d he hd as
  have hkeyed := h.keyed e d he hd
  -- an element bounds what is allowed for its AS
  have hbound : ∀ n, ⟨as, n⟩ ∈ d.elems → ∀ r ∈ roas, r.key = e → r.asnum = as → r.maxlen ≤ n := by
    intro n hmem r hr hkey has
    obtain ⟨rs, hrs, hrsas, hle⟩ := (hallows r.maxlen).mpr ⟨r, hr, hkey, has, le_rfl⟩
    obtain rfl := List.inj_on_of_nodup_map hkeyed hrs hmem hrsas
    exact hle
  have hexact : ∀ n, ⟨as, n⟩ ∈ d.elems →
      ∃ r ∈ roas, r.key = e ∧ r.asnum = as ∧ r.maxlen = n := by
    intro n hmem
    obtain ⟨r, hr, hkey, has, hle⟩ := (hallows n).mp ⟨⟨as, n⟩, hmem, rfl, le_rfl⟩
    exact ⟨r, hr, hkey, has, le_antisymm (hbound n hmem r hr hkey has) hle⟩
  constructor
  · exact fun hmem => ⟨hexact n hmem, hbound n hmem⟩
  · rintro ⟨⟨r, hr, hkey, has, rfl⟩, hmax⟩
    obtain ⟨rs, hrs, rfl, hle⟩ := (hallows r.maxlen).mpr ⟨r, hr, hkey, has, le_rfl⟩
    obtain ⟨r', hr', hkey', has', hlen'⟩ := hexact rs.maxlen hrs
    have hle' := hmax r' hr' hkey' has'
    rw [hlen'] at hle'
    rw [le_antisymm hle hle']
    exact hrs

theorem RoaHolds.hasRoa_iff (h : RoaHolds roas t) {r : Roa fam} :
    t.HasRoa r ↔ (∃ r' ∈ roas, r'.masked = r) ∧
      ∀ r' ∈ roas, r'.key = (r.addr, r.prefixlen) → r'.asnum = r.asnum → r'.maxlen ≤ r.maxlen := by
  unfold Trie.HasRoa
  simp only [Roa.masked_eq_iff]
  constructor
  · rintro ⟨hmask, d, hd, hmem⟩
    exact (h.mem_elems_iff (e := (r.addr, r.prefixlen)) hmask hd).mp hmem
  · rintro ⟨hex, hmax⟩
    obtain ⟨r', hr', hkey, hrest⟩ := hex
    obtain ⟨hmask, d, hd⟩ := (h.keys _).mpr ⟨r', hr', hkey⟩
    exact ⟨hmask, d, hd, (h.mem_elems_iff (e := (r.addr, r.prefixlen)) hmask hd).mpr
      ⟨⟨r', hr', hkey, hrest⟩, hmax⟩⟩

end Family

/-! ## The order -/

/-- What `roa_cmp` compares. -/
def roaKey (r : AnyRoa) : ℕ ×ₗ ℕ ×ₗ ℕ ×ₗ ℕ ×ₗ ℕ :=
  toLex (r.addr.aid, toLex (r.addr.val, toLex (r.prefixlen, toLex (r.asnum, r.maxlen))))

/-- One field in a comparison function, and what is compared behind it. -/
theorem cmpField_lt (x y : ℕ) (r : ℤ) :
    (if x < y then -1 else if x > y then 1 else r) < 0 ↔ x < y ∨ x = y ∧ r < 0 := by
  obtain h | h | h := lt_trichotomy x y
  · simp [h]
  · simp [h]
  · simp [h, h.not_gt, h.ne']

theorem cmpField_eq (x y : ℕ) (r : ℤ) :
    (if x < y then -1 else if x > y then 1 else r) = 0 ↔ x = y ∧ r = 0 := by
  obtain h | h | h := lt_trichotomy x y
  · simp [h, h.ne]
  · simp [h]
  · simp [h, h.not_gt, h.ne']

/-- `roa_cmp` makes the two tests of an address the other way around. -/
theorem cmpField_swap (x y : ℕ) (r : ℤ) :
    (if x > y then 1 else if x < y then -1 else r) = if x < y then -1 else if x > y then 1
      else r := by
  obtain h | h | h := lt_trichotomy x y
  · simp [h, h.not_gt]
  · simp [h]
  · simp [h, h.not_gt]

theorem roaCmp_comparesBy : ComparesBy roaCmp roaKey where
  lt a b := by
    unfold roaCmp roaKey
    rw [cmpField_lt, cmpField_swap, cmpField_lt, cmpField_lt, cmpField_lt, cmpField_lt,
      Prod.Lex.toLex_lt_toLex, Prod.Lex.toLex_lt_toLex, Prod.Lex.toLex_lt_toLex,
      Prod.Lex.toLex_lt_toLex]
    simp only [lt_irrefl, and_false, or_false]
  eq a b := by
    unfold roaCmp roaKey
    rw [cmpField_eq, cmpField_swap, cmpField_eq, cmpField_eq, cmpField_eq, cmpField_eq]
    simp only [EmbeddingLike.apply_eq_iff_eq, Prod.mk.injEq, and_true]

theorem roaKey_injective {a b : AnyRoa} (h : roaKey a = roaKey b) : a = b := by
  unfold roaKey at h
  simp only [EmbeddingLike.apply_eq_iff_eq, Prod.mk.injEq] at h
  obtain ⟨haid, hval, hlen, has, hmax⟩ := h
  have haddr := InetAddr.ext_val haid hval
  rcases a with ⟨a, alen, amax, aas⟩ | ⟨a, alen, amax, aas⟩ <;>
    rcases b with ⟨b, blen, bmax, bas⟩ | ⟨b, blen, bmax, bas⟩
  · obtain rfl := InetAddr.v4.inj haddr
    obtain ⟨rfl, rfl, rfl⟩ : alen = blen ∧ amax = bmax ∧ aas = bas := ⟨hlen, hmax, has⟩
    rfl
  · cases haddr
  · cases haddr
  · obtain rfl := InetAddr.v6.inj haddr
    obtain ⟨rfl, rfl, rfl⟩ : alen = blen ∧ amax = bmax ∧ aas = bas := ⟨hlen, hmax, has⟩
    rfl

/-! ## Both families -/

namespace AnyRoa

def masked : AnyRoa → AnyRoa
  | .v4 r => .v4 r.masked
  | .v6 r => .v6 r.masked

/-- The prefix and the AS are the same. -/
def SameKey (r r' : AnyRoa) : Prop :=
  r.addr = r'.addr ∧ r.prefixlen = r'.prefixlen ∧ r.asnum = r'.asnum

end AnyRoa

/-- The ROA is in the table. -/
def RoaHead.Entry (th : RoaHead) : AnyRoa → Prop
  | .v4 r => th.v4.HasRoa r
  | .v6 r => th.v6.HasRoa r

/-- No ROA of the union gets lost among those that come before it. -/
structure NoneLost (union : List AnyRoa) : Prop where
  v4 : ∀ r, .v4 r ∈ union →
    ¬Lost (fun e => ∃ r', .v4 r' ∈ union ∧ roaCmp (.v4 r') (.v4 r) < 0 ∧ r'.key = e) r.key.1 r.key.2
  v6 : ∀ r, .v6 r ∈ union →
    ¬Lost (fun e => ∃ r', .v6 r' ∈ union ∧ roaCmp (.v6 r') (.v6 r) < 0 ∧ r'.key = e) r.key.1 r.key.2

variable {roas : List AnyRoa}

/-- A table that every ROA is accepted for. -/
theorem roaTable_eq {th : RoaHead} (h : roas.foldlM trieRoaAdd {} = some th) :
    roaTable roas = th := by
  have hgen : ∀ (roas : List AnyRoa) (th₀ th : RoaHead), roas.foldlM trieRoaAdd th₀ = some th →
      roas.foldl (fun th roa => (trieRoaAdd th roa).getD th) th₀ = th := by
    intro roas
    induction roas with
    | nil =>
      intro th₀ th h
      exact Option.some.inj h
    | cons roa roas ih =>
      intro th₀ th h
      rw [List.foldlM_cons] at h
      obtain ⟨th₁, hadd, hrest⟩ := Option.bind_eq_some_iff.mp h
      rw [List.foldl_cons, hadd]
      exact ih th₁ th hrest
  exact hgen roas {} th h

/-- The ROAs of a family that come before one of them. -/
theorem mem_before_iff {fam : Family} (wrap : Roa fam → AnyRoa) {l l' : List (Roa fam)}
    {r : Roa fam}
    (hsorted : TreeSorted (roaKey ∘ wrap) (l ++ r :: l')) (r' : Roa fam) :
    r' ∈ l ↔ r' ∈ l ++ r :: l' ∧ roaCmp (wrap r') (wrap r) < 0 := by
  obtain ⟨-, hafter, hbefore⟩ := List.pairwise_append.mp hsorted
  rw [roaCmp_comparesBy.lt]
  constructor
  · intro hr'
    exact ⟨List.mem_append_left _ hr', hbefore r' hr' r List.mem_cons_self⟩
  · rintro ⟨hr', hlt⟩
    rcases List.mem_append.mp hr' with hr' | hr'
    · exact hr'
    · rcases List.mem_cons.mp hr' with rfl | hr'
      · exact absurd hlt (lt_irrefl _)
      · exact absurd hlt ((List.pairwise_cons.mp hafter).1 r' hr').not_gt

theorem treeSorted_roas4 (h : TreeSorted roaKey roas) :
    TreeSorted (roaKey ∘ AnyRoa.v4) (roas4 roas) := by
  unfold TreeSorted roas4
  rw [List.pairwise_filterMap]
  apply h.imp
  rintro (a | a) (b | b) hlt x hx y hy <;> cases hx <;> cases hy
  exact hlt

theorem treeSorted_roas6 (h : TreeSorted roaKey roas) :
    TreeSorted (roaKey ∘ AnyRoa.v6) (roas6 roas) := by
  unfold TreeSorted roas6
  rw [List.pairwise_filterMap]
  apply h.imp
  rintro (a | a) (b | b) hlt x hx y hy <;> cases hx <;> cases hy
  exact hlt

/-- In the order of the tree no ROA gets lost. -/
theorem NoneLost.kept (h : NoneLost roas) (hsorted : TreeSorted roaKey roas) :
    RoasKept (roas4 roas) ∧ RoasKept (roas6 roas) := by
  constructor
  · intro l r l' heq
    have hbefore := mem_before_iff AnyRoa.v4 (heq ▸ treeSorted_roas4 hsorted)
    rw [← heq] at hbefore
    simp only [hbefore, mem_roas4, and_assoc]
    exact h.v4 r (mem_roas4.mp (by rw [heq]; simp))
  · intro l r l' heq
    have hbefore := mem_before_iff AnyRoa.v6 (heq ▸ treeSorted_roas6 hsorted)
    rw [← heq] at hbefore
    simp only [hbefore, mem_roas6, and_assoc]
    exact h.v6 r (mem_roas6.mp (by rw [heq]; simp))

theorem NoneLost.congr {roas' : List AnyRoa} (h : NoneLost roas)
    (hmem : ∀ r, r ∈ roas ↔ r ∈ roas') :
    NoneLost roas' := by
  constructor
  · intro r hr
    simp only [← hmem]
    exact h.v4 r ((hmem _).mpr hr)
  · intro r hr
    simp only [← hmem]
    exact h.v6 r ((hmem _).mpr hr)

/-- No ROA gets lost if the mask was applied to all addresses. -/
theorem noneLost_of_masked (h : ∀ r ∈ roas, r.masked = r) : NoneLost roas := by
  have hinside : ∀ {fam : Family} {r r' : Roa fam}, r.masked = r → r'.masked = r' →
      r'.addr.toNat < r.addr.toNat ∨ r'.addr.toNat = r.addr.toNat ∧ r'.prefixlen ≤ r.prefixlen →
      ¬Inside r.key.1 r.key.2 r'.key := by
    intro fam r r' hr hr' hle
    exact not_inside_of_masked (x := r.raw) (y := r'.raw) (congrArg Roa.addr hr)
      (congrArg Roa.addr hr') hle
  constructor
  · intro r hr hlost
    obtain ⟨e, ⟨r', hr', hlt, rfl⟩, hin⟩ := hlost.inside
    exact hinside (AnyRoa.v4.inj (h _ hr)) (AnyRoa.v4.inj (h _ hr')) (roaCmp_le_zero hlt.le rfl) hin
  · intro r hr hlost
    obtain ⟨e, ⟨r', hr', hlt, rfl⟩, hin⟩ := hlost.inside
    exact hinside (AnyRoa.v6.inj (h _ hr)) (AnyRoa.v6.inj (h _ hr')) (roaCmp_le_zero hlt.le rfl) hin

/-- The entries of the table of a tree of ROAs: for each prefix and AS the largest length. -/
theorem roaTable_entry_iff (hsorted : TreeSorted roaKey roas)
    (hlen : ∀ r ∈ roas, r.prefixlen ≤ r.addr.bits) (hlost : NoneLost roas) (r : AnyRoa) :
    (roaTable roas).Entry r ↔ (∃ r' ∈ roas, r'.masked = r) ∧
      ∀ r' ∈ roas, r'.masked.SameKey r → r'.maxlen ≤ r.maxlen := by
  obtain ⟨hkept4, hkept6⟩ := hlost.kept hsorted
  obtain ⟨t4, h4, hholds4⟩ :=
    roaAll_holds_of_kept (roas4 roas) (fun r hr => hlen _ (mem_roas4.mp hr)) hkept4
  obtain ⟨t6, h6, hholds6⟩ :=
    roaAll_holds_of_kept (roas6 roas) (fun r hr => hlen _ (mem_roas6.mp hr)) hkept6
  have hfold : roas.foldlM trieRoaAdd {} = some ⟨t4, t6⟩ := foldlM_trieRoaAdd h4 h6
  rw [roaTable_eq hfold]
  cases r with
  | v4 r =>
    refine hholds4.hasRoa_iff.trans (and_congr ?_ ?_)
    · constructor
      · rintro ⟨r', hr', rfl⟩
        exact ⟨_, mem_roas4.mp hr', rfl⟩
      · rintro ⟨r' | r', hr', heq⟩
        · exact ⟨r', mem_roas4.mpr hr', AnyRoa.v4.inj heq⟩
        · cases heq
    · constructor
      · rintro hmax (r' | r') hr' ⟨haddr, hlen', has⟩
        · exact hmax r' (mem_roas4.mpr hr') (Prod.ext (InetAddr.v4.inj haddr) hlen') has
        · cases haddr
      · intro hmax r' hr' hkey has
        obtain ⟨haddr, hlen'⟩ := Prod.mk.inj hkey
        exact hmax (.v4 r') (mem_roas4.mp hr') ⟨congrArg InetAddr.v4 haddr, hlen', has⟩
  | v6 r =>
    refine hholds6.hasRoa_iff.trans (and_congr ?_ ?_)
    · constructor
      · rintro ⟨r', hr', rfl⟩
        exact ⟨_, mem_roas6.mp hr', rfl⟩
      · rintro ⟨r' | r', hr', heq⟩
        · cases heq
        · exact ⟨r', mem_roas6.mpr hr', AnyRoa.v6.inj heq⟩
    · constructor
      · rintro hmax (r' | r') hr' ⟨haddr, hlen', has⟩
        · cases haddr
        · exact hmax r' (mem_roas6.mpr hr') (Prod.ext (InetAddr.v6.inj haddr) hlen') has
      · intro hmax r' hr' hkey has
        obtain ⟨haddr, hlen'⟩ := Prod.mk.inj hkey
        exact hmax (.v6 r') (mem_roas6.mp hr') ⟨congrArg InetAddr.v6 haddr, hlen', has⟩

end Bgpd.Rpki
