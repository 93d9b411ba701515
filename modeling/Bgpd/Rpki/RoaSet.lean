import Bgpd.Rpki.PrefixSet

/-!
# Origin Validation

`trie_roa_add` fills a trie in which each node has a table of AS numbers with the largest
length that a route of the AS may have. The RTR engine sends ROAs in the order of `roa_cmp`
and with masked addresses, so that no ROA comes after one inside it and none gets lost. The
check is the one of RFC 6811: a route is covered by a ROA, and if it is, it is valid if one of
the ROAs that cover it has its AS and a length that is large enough.

## Main results

- `roaAll_holds`: what the trie holds
- `trieRoaCheck_eq`: the check is the one of RFC 6811
-/

namespace Bgpd.Rpki

open Bgpd.Lib

variable {fam : Family}

/-! ## The table of a node -/

section Table

variable {set : SetTable} {asnum maxlen as n : ℕ}

/-- The elements of a table. -/
def SetTable.elems (set : SetTable) : List RoaSet := set.getD []

/-- No AS is in the table twice. -/
def SetTable.Keyed (set : SetTable) : Prop := (set.elems.map RoaSet.as).Nodup

/-- Some element for the AS allows routes of length `n`. -/
def SetTable.Allows (set : SetTable) (as n : ℕ) : Prop :=
  ∃ rs ∈ set.elems, rs.as = as ∧ n ≤ rs.maxlen

theorem setMatch_eq (set : SetTable) (asnum : ℕ) :
    setMatch set asnum = set.elems.find? fun rs => rs.as = asnum := by
  cases set <;> rfl

theorem setMatch_eq_some_iff (h : set.Keyed) {rs : RoaSet} :
    setMatch set asnum = some rs ↔ rs ∈ set.elems ∧ rs.as = asnum := by
  rw [setMatch_eq]
  constructor
  · intro hfind
    exact ⟨List.mem_of_find?_eq_some hfind, by simpa using List.find?_some hfind⟩
  · rintro ⟨hmem, rfl⟩
    obtain ⟨rs', hfind⟩ : ∃ rs', set.elems.find? (fun x => x.as = rs.as) = some rs' := by
      rw [← Option.isSome_iff_exists, List.find?_isSome]
      exact ⟨rs, hmem, by simp⟩
    have has : rs'.as = rs.as := by simpa using List.find?_some hfind
    rw [hfind, List.inj_on_of_nodup_map h (List.mem_of_find?_eq_some hfind) hmem has]

theorem setMatch_eq_none_iff : setMatch set asnum = none ↔ ∀ rs ∈ set.elems, rs.as ≠ asnum := by
  rw [setMatch_eq, List.find?_eq_none]
  simp

theorem allows_iff (h : set.Keyed) :
    set.Allows as n ↔ ∃ rs, setMatch set as = some rs ∧ n ≤ rs.maxlen := by
  unfold SetTable.Allows
  simp only [setMatch_eq_some_iff h, and_assoc]

/-- A table without the AS gets one more element, in its place. -/
theorem roaMerge_of_none (h : setMatch set asnum = none) :
    (roaMerge asnum maxlen set).elems.Perm (set.elems ++ [⟨asnum, maxlen⟩]) := by
  have h : setMatch (some (set.getD [])) asnum = none := by
    rw [setMatch_eq] at h ⊢
    exact h
  simp only [roaMerge, h]
  exact List.perm_insertionSort _ _

/-- Otherwise the longer length wins. -/
theorem roaMerge_of_some {rs : RoaSet} (h : setMatch set asnum = some rs) :
    (roaMerge asnum maxlen set).elems =
      if rs.maxlen < maxlen then
        set.elems.map fun x => if x.as = asnum then { x with maxlen := maxlen } else x
      else set.elems := by
  have h : setMatch (some (set.getD [])) asnum = some rs := by
    rw [setMatch_eq] at h ⊢
    exact h
  simp only [roaMerge, h]
  split <;> rfl

theorem SetTable.Keyed.roaMerge (h : set.Keyed) : (roaMerge asnum maxlen set).Keyed := by
  unfold SetTable.Keyed
  cases hm : setMatch set asnum with
  | none =>
    rw [((roaMerge_of_none hm).map _).nodup_iff, List.map_append, List.map_singleton,
      List.nodup_append]
    refine ⟨h, List.nodup_singleton _, ?_⟩
    intro a ha b hb
    obtain ⟨rs, hrs, rfl⟩ := List.mem_map.mp ha
    rw [List.mem_singleton.mp hb]
    exact setMatch_eq_none_iff.mp hm rs hrs
  | some rs =>
    rw [roaMerge_of_some hm]
    split
    · have hsame : RoaSet.as ∘ (fun x : RoaSet =>
          if x.as = asnum then { x with maxlen := maxlen } else x) = RoaSet.as := by
        funext x
        dsimp only [Function.comp]
        split <;> rfl
      rw [List.map_map, hsame]
      exact h
    · exact h

/-- What a table allows after a ROA was merged into it. -/
theorem allows_roaMerge (h : set.Keyed) :
    (roaMerge asnum maxlen set).Allows as n ↔ set.Allows as n ∨ as = asnum ∧ n ≤ maxlen := by
  unfold SetTable.Allows
  cases hm : setMatch set asnum with
  | none =>
    simp only [(roaMerge_of_none hm).mem_iff]
    rw [exists_mem_concat]
    exact or_congr_right (and_congr_left fun _ => eq_comm)
  | some rs =>
    obtain ⟨hmem, has⟩ := (setMatch_eq_some_iff h).mp hm
    rw [roaMerge_of_some hm]
    split
    · next hlt =>
      constructor
      · rintro ⟨y, hy, hyas, hn⟩
        obtain ⟨x, hx, rfl⟩ := List.mem_map.mp hy
        split at hyas
        · next hxas =>
          rw [if_pos hxas] at hn
          exact Or.inr ⟨hyas.symm.trans hxas, hn⟩
        · next hxas =>
          rw [if_neg hxas] at hn
          exact Or.inl ⟨x, hx, hyas, hn⟩
      · rintro (⟨x, hx, hxas, hn⟩ | ⟨rfl, hn⟩)
        · refine ⟨_, List.mem_map_of_mem hx, ?_, ?_⟩
          · split <;> exact hxas
          · split
            · next hxas' =>
              -- the element for the AS is the one that was found
              obtain rfl : rs = x := List.inj_on_of_nodup_map h hmem hx (has.trans hxas'.symm)
              exact hn.trans hlt.le
            · exact hn
        · refine ⟨_, List.mem_map_of_mem hmem, ?_, ?_⟩
          · rw [if_pos has]
            exact has
          · rw [if_pos has]
            exact hn
    · next hge =>
      rw [or_iff_left_of_imp]
      rintro ⟨rfl, hn⟩
      exact ⟨rs, hmem, has, by omega⟩

end Table

/-! ## The trie -/

namespace Roa

/-- The prefix of the ROA, with the mask applied. -/
def key (r : Roa fam) : BitVec fam.bits × ℕ := (topBits r.addr r.prefixlen, r.prefixlen)

/-- What the RTR engine and the parser check, and the mask that they apply. -/
def Ok (r : Roa fam) : Prop :=
  topBits r.addr r.prefixlen = r.addr ∧ r.prefixlen ≤ r.maxlen ∧ r.maxlen ≤ fam.bits

/-- The ROA covers the route. -/
def Covers (r : Roa fam) (q : BitVec fam.bits) (plen : ℕ) : Prop :=
  r.prefixlen ≤ plen ∧ topBits r.addr r.prefixlen = topBits q r.prefixlen

/-- The ROA matches the route: it covers it and has its AS and a length that is large enough. -/
def Matches (r : Roa fam) (q : BitVec fam.bits) (plen as : ℕ) : Prop :=
  r.Covers q plen ∧ r.asnum = as ∧ plen ≤ r.maxlen

instance (r : Roa fam) : Decidable r.Ok := inferInstanceAs (Decidable (_ ∧ _ ∧ _))

instance (r : Roa fam) (q : BitVec fam.bits) (plen : ℕ) : Decidable (r.Covers q plen) :=
  inferInstanceAs (Decidable (_ ∧ _))

/-- The prefix of the ROA as it is written. -/
def raw (r : Roa fam) : RawPrefix fam := (r.addr, r.prefixlen)

end Roa

/-- The trie holds the ROAs: a node for each prefix, with a table of what it allows. -/
structure RoaHolds (roas : List (Roa fam)) (t : Trie fam.bits SetTable) : Prop where
  wf : t.Wf
  keys : ∀ e, t.Key e ↔ ∃ r ∈ roas, r.key = e
  keyed : ∀ (e : BitVec fam.bits × ℕ) d, topBits e.1 e.2 = e.1 → t.get e.1 e.2 = some d → d.Keyed
  allows : ∀ (e : BitVec fam.bits × ℕ) d, topBits e.1 e.2 = e.1 → t.get e.1 e.2 = some d → ∀ as n,
    d.Allows as n ↔ ∃ r ∈ roas, r.key = e ∧ r.asnum = as ∧ n ≤ r.maxlen

theorem RoaHolds.nil : RoaHolds ([] : List (Roa fam)) .nil where
  wf := trivial
  keys := by simp [Trie.Key, Trie.get]
  keyed := by simp [Trie.get]
  allows := by simp [Trie.get]

/-- The table that is kept for a prefix, which is empty if there is no node for it. -/
theorem RoaHolds.getD {roas : List (Roa fam)} {t : Trie fam.bits SetTable} (h : RoaHolds roas t)
    {e : BitVec fam.bits × ℕ} (he : topBits e.1 e.2 = e.1) :
    ((t.get e.1 e.2).getD default).Keyed ∧ ∀ as n, ((t.get e.1 e.2).getD default).Allows as n ↔
      ∃ r ∈ roas, r.key = e ∧ r.asnum = as ∧ n ≤ r.maxlen := by
  cases hd : t.get e.1 e.2 with
  | some d => exact ⟨h.keyed e d he hd, h.allows e d he hd⟩
  | none =>
    refine ⟨List.nodup_nil, fun as n => iff_of_false ?_ ?_⟩
    · rintro ⟨rs, hrs, -⟩
      exact absurd hrs List.not_mem_nil
    · rintro ⟨r, hr, hkey, -⟩
      obtain ⟨-, d, hd'⟩ := (h.keys e).mpr ⟨r, hr, hkey⟩
      rw [hd] at hd'
      exact absurd hd' (by simp)

/-- A ROA that does not get lost is held afterwards, with the ROAs before. -/
theorem RoaHolds.add {roas : List (Roa fam)} {t : Trie fam.bits SetTable} (h : RoaHolds roas t)
    {r : Roa fam} (hlen : r.prefixlen ≤ fam.bits)
    (hok : t.AddOk (topBits r.addr r.prefixlen) r.prefixlen) :
    ∃ t', roaAdd t r = some t' ∧ RoaHolds (roas ++ [r]) t' := by
  refine ⟨trieAddNode fam (roaMerge r.asnum r.maxlen) r.addr r.prefixlen t, if_neg (by omega), ?_⟩
  have hmask : topBits (topBits r.addr r.prefixlen) r.prefixlen = topBits r.addr r.prefixlen :=
    topBits_topBits_of_le le_rfl _
  have hspec : AddSpec (roaMerge r.asnum r.maxlen) (topBits r.addr r.prefixlen) r.prefixlen t
      (trieAddNode fam (roaMerge r.asnum r.maxlen) r.addr r.prefixlen t) :=
    addWalk_spec h.wf hmask (by omega) hok
  generalize trieAddNode fam (roaMerge r.asnum r.maxlen) r.addr r.prefixlen t = t' at hspec
  have hkey : ∀ {e : BitVec fam.bits × ℕ}, r.key = e ↔
      e.1 = topBits r.addr r.prefixlen ∧ e.2 = r.prefixlen := by
    intro e
    rw [eq_comm]
    exact Prod.ext_iff
  refine ⟨hspec.wf, ?_, ?_, ?_⟩
  · intro e
    rw [hspec.key_iff hmask, exists_mem_concat, h.keys, or_comm]
    exact or_congr_right eq_comm
  · intro e d he hd
    rw [hspec.get _ _ he] at hd
    split at hd
    · next heq =>
      obtain rfl := hkey.mpr heq
      cases hd
      exact (h.getD he).1.roaMerge
    · exact h.keyed e d he hd
  · intro e d he hd as n
    rw [hspec.get _ _ he] at hd
    rw [exists_mem_concat]
    split at hd
    · next heq =>
      -- the ROA is merged into what was there
      obtain rfl := hkey.mpr heq
      cases hd
      apply (allows_roaMerge (h.getD he).1).trans
      apply or_congr ((h.getD he).2 as n)
      constructor
      · rintro ⟨rfl, hn⟩
        exact ⟨rfl, rfl, hn⟩
      · rintro ⟨-, rfl, hn⟩
        exact ⟨rfl, hn⟩
    · next hne =>
      rw [h.allows e d he hd, or_iff_left]
      rintro ⟨he', -⟩
      exact hne (hkey.mp he')

/-- The order in which the ROAs of a family come. -/
def RoaSorted (roas : List (Roa fam)) : Prop :=
  roas.Pairwise fun a b =>
    a.addr.toNat < b.addr.toNat ∨ a.addr.toNat = b.addr.toNat ∧ a.prefixlen ≤ b.prefixlen

/-- No ROA gets lost among those before it. -/
def RoasKept (roas : List (Roa fam)) : Prop :=
  ∀ l r l', roas = l ++ r :: l' → ¬Lost (fun e => ∃ r' ∈ l, r'.key = e) r.key.1 r.key.2

/-- All ROAs are held if none gets lost. -/
theorem roaAll_holds_of_kept (roas : List (Roa fam)) (hlen : ∀ r ∈ roas, r.prefixlen ≤ fam.bits)
    (hkept : RoasKept roas) : ∃ t, roas.foldlM roaAdd .nil = some t ∧ RoaHolds roas t := by
  induction roas using List.reverseRecOn with
  | nil => exact ⟨.nil, rfl, RoaHolds.nil⟩
  | append_singleton roas r ih =>
    have hinit : RoasKept roas := by
      intro l r' l' heq
      refine hkept l r' (l' ++ [r]) ?_
      rw [heq, List.append_assoc, List.cons_append]
    obtain ⟨t, ht, h⟩ := ih (fun r hr => hlen r (List.mem_append_left _ hr)) hinit
    have hadd : t.AddOk (topBits r.addr r.prefixlen) r.prefixlen := by
      rw [addOk_iff h.wf (topBits_topBits_of_le le_rfl _), show t.Key = _ from
        funext fun e => propext (h.keys e)]
      exact hkept roas r [] rfl
    obtain ⟨t', ht', h'⟩ := h.add (hlen r (by simp)) hadd
    refine ⟨t', ?_, h'⟩
    rw [List.foldlM_append, ht]
    simpa using ht'

/-- None gets lost in the order of the addresses if the mask was applied to them. -/
theorem roasKept_of_masked {roas : List (Roa fam)}
    (hmask : ∀ r ∈ roas, topBits r.addr r.prefixlen = r.addr) (hsorted : RoaSorted roas) :
    RoasKept roas := by
  rintro l r l' rfl hlost
  obtain ⟨e, ⟨r', hr', rfl⟩, hin⟩ := hlost.inside
  have hle := (List.pairwise_append.mp hsorted).2.2 r' hr' r List.mem_cons_self
  exact not_inside_of_masked (x := r.raw) (y := r'.raw) (hmask r (by simp))
    (hmask r' (List.mem_append_left _ hr')) hle hin

/-- All ROAs are held. -/
theorem roaAll_holds (roas : List (Roa fam)) (hok : ∀ r ∈ roas, r.Ok) (hsorted : RoaSorted roas) :
    ∃ t, roas.foldlM roaAdd .nil = some t ∧ RoaHolds roas t :=
  roaAll_holds_of_kept roas (fun r hr => (hok r hr).2.1.trans (hok r hr).2.2)
    (roasKept_of_masked (fun r hr => (hok r hr).1) hsorted)

/-! ## The check -/

/-- The ROA of a node makes the route valid. -/
def nodeValid (plen as : ℕ) (x : ℕ × SetTable) : Bool :=
  as ≠ asNone && (setMatch x.2 as).any fun rs => plen = x.1 || plen ≤ rs.maxlen

/-- The walk of `trie_roa_check` in terms of the nodes that it visits. -/
theorem roaCheckWalk_eq {w : ℕ} (q : BitVec w) (plen as : ℕ) (t : Trie w SetTable)
    (validity : RoaState) :
    trieRoaCheckWalk q plen as t validity =
      if (t.covers q plen).any (nodeValid plen as) then .valid
      else if t.covers q plen = [] then validity else .invalid := by
  induction t generalizing validity with
  | nil => rfl
  | node naddr nplen real set trie0 trie1 ih0 ih1 =>
    rw [trieRoaCheckWalk, Trie.covers]
    split
    · rfl
    split
    · rfl
    rw [List.any_append]
    -- what the rest of the walk gives
    have hrest : ∀ v, (if nplen = w then v
          else if q.getMsbD nplen then trieRoaCheckWalk q plen as trie1 v
          else trieRoaCheckWalk q plen as trie0 v) =
        if (if nplen = w then [] else if q.getMsbD nplen then trie1.covers q plen
            else trie0.covers q plen).any (nodeValid plen as) then .valid
        else if (if nplen = w then [] else if q.getMsbD nplen then trie1.covers q plen
            else trie0.covers q plen) = [] then v else .invalid := by
      intro v
      split
      · rfl
      split
      · exact ih1 v
      · exact ih0 v
    generalize (if nplen = w then [] else if q.getMsbD nplen then trie1.covers q plen
      else trie0.covers q plen) = rest at hrest
    dsimp only
    cases real with
    -- a fork without a set decides nothing
    | false =>
      rw [if_neg (by simp), if_neg Bool.false_ne_true, if_neg Bool.false_ne_true, hrest]
      rfl
    | true =>
      have hself : (Option.any (fun rs => decide (plen = nplen) || decide (plen ≤ rs.maxlen))
          (if true = true ∧ as ≠ asNone then setMatch set as else none)) =
          nodeValid plen as (nplen, set) := by
        unfold nodeValid
        by_cases has : as = asNone
        · simp [has]
        · simp [has]
      rw [hself, hrest, if_pos rfl, if_pos rfl, List.any_cons, List.any_nil, Bool.or_false]
      cases nodeValid plen as (nplen, set) with
      | true => rfl
      | false =>
        rw [Bool.false_or, if_neg Bool.false_ne_true, List.singleton_append]
        split
        · rfl
        · simp

/-- RFC 6811: the state of a route that is covered by a ROA or not, and that is matched by one
    or not. -/
structure Rfc6811 (covered matched : Prop) (v : RoaState) : Prop where
  notfound : v = .notfound ↔ ¬covered
  valid : v = .valid ↔ matched
  invalid : v = .invalid ↔ covered ∧ ¬matched

theorem Rfc6811.unique {covered matched : Prop} {v v' : RoaState} (h : Rfc6811 covered matched v)
    (h' : Rfc6811 covered matched v') : v = v' := by
  cases v with
  | notfound => exact (h'.notfound.mpr (h.notfound.mp rfl)).symm
  | invalid => exact (h'.invalid.mpr (h.invalid.mp rfl)).symm
  | valid => exact (h'.valid.mpr (h.valid.mp rfl)).symm

/-- The walk of a trie that holds the ROAs decides as RFC 6811 does. -/
theorem RoaHolds.check {roas : List (Roa fam)} {t : Trie fam.bits SetTable} (h : RoaHolds roas t)
    (hok : ∀ r ∈ roas, r.Ok) (q : BitVec fam.bits) (plen as : ℕ) :
    Rfc6811 (∃ r ∈ roas, r.Covers q plen) (as ≠ asNone ∧ ∃ r ∈ roas, r.Matches q plen as)
      (trieRoaCheckWalk q plen as t .notfound) := by
  have hmask : ∀ n, topBits (topBits q n) n = topBits q n := fun n => topBits_topBits_of_le le_rfl q
  -- a node on the path is a ROA that covers the route
  have hcov : t.covers q plen = [] ↔ ∀ r ∈ roas, ¬r.Covers q plen := by
    rw [List.eq_nil_iff_forall_not_mem]
    constructor
    · rintro hno r hr ⟨hle, htop⟩
      obtain ⟨-, d, hd⟩ := (h.keys r.key).mpr ⟨r, hr, rfl⟩
      refine hno (r.prefixlen, d) ((mem_covers_iff h.wf).mpr ⟨hle, ?_⟩)
      rw [← htop]
      exact hd
    · rintro hno ⟨n, d⟩ hmem
      obtain ⟨hle, hget⟩ := (mem_covers_iff h.wf).mp hmem
      obtain ⟨r, hr, hkey⟩ := (h.keys (topBits q n, n)).mp ⟨hmask n, d, hget⟩
      obtain ⟨htop, rfl⟩ := Prod.mk.inj hkey
      exact hno r hr ⟨hle, htop⟩
  -- it matches by its length, or by its maximum
  have hvalid : (t.covers q plen).any (nodeValid plen as) = true ↔
      as ≠ asNone ∧ ∃ r ∈ roas, r.Matches q plen as := by
    rw [List.any_eq_true]
    constructor
    · rintro ⟨⟨n, d⟩, hmem, hv⟩
      obtain ⟨hle, hget⟩ := (mem_covers_iff h.wf).mp hmem
      simp only [nodeValid, Bool.and_eq_true, decide_eq_true_eq, Option.any_eq_true,
        Bool.or_eq_true] at hv
      obtain ⟨has, rs, hrs, hlen⟩ := hv
      refine ⟨has, ?_⟩
      have hkeyed := h.keyed (topBits q n, n) d (hmask n) hget
      -- a route of the length of the node is allowed by every ROA of the node
      rcases hlen with rfl | hlen
      · obtain ⟨r, hr, hkey, hras, -⟩ :=
          (h.allows (topBits q plen, plen) d (hmask plen) hget as 0).mp
          ((allows_iff hkeyed).mpr ⟨rs, hrs, Nat.zero_le _⟩)
        obtain ⟨htop, hn⟩ := Prod.mk.inj hkey
        have hmax := (hok r hr).2.1
        exact ⟨r, hr, ⟨hn.le, by rw [htop, hn]⟩, hras, by omega⟩
      · obtain ⟨r, hr, hkey, hras, hn⟩ := (h.allows (topBits q n, n) d (hmask n) hget as plen).mp
          ((allows_iff hkeyed).mpr ⟨rs, hrs, hlen⟩)
        obtain ⟨htop, rfl⟩ := Prod.mk.inj hkey
        exact ⟨r, hr, ⟨hle, htop⟩, hras, hn⟩
    · rintro ⟨has, r, hr, ⟨hle, htop⟩, hras, hmax⟩
      have hkey : r.key = (topBits q r.prefixlen, r.prefixlen) := by rw [Roa.key, htop]
      obtain ⟨-, d, hd⟩ := (h.keys _).mpr ⟨r, hr, hkey⟩
      obtain ⟨rs, hrs, hlen⟩ := (allows_iff (h.keyed _ d (hmask _) hd)).mp
        ((h.allows _ d (hmask _) hd as plen).mpr ⟨r, hr, hkey, hras, hmax⟩)
      refine ⟨(r.prefixlen, d), (mem_covers_iff h.wf).mpr ⟨hle, hd⟩, ?_⟩
      simp [nodeValid, has, hrs, hlen]
  have hexists : (∃ r ∈ roas, r.Covers q plen) ↔ t.covers q plen ≠ [] := by
    rw [Ne, hcov]
    push Not
    rfl
  have hsub : (t.covers q plen).any (nodeValid plen as) = true → t.covers q plen ≠ [] := by
    rintro hv hnil
    rw [hnil] at hv
    exact Bool.false_ne_true hv
  rw [roaCheckWalk_eq, hexists, ← hvalid]
  by_cases hv : (t.covers q plen).any (nodeValid plen as) = true
  · have hne := hsub hv
    rw [if_pos hv]
    constructor <;> simp [hv, hne]
  · rw [if_neg hv]
    by_cases hnil : t.covers q plen = []
    · rw [if_pos hnil]
      constructor <;> simp [hnil]
    · rw [if_neg hnil]
      constructor <;> simp [hv, hnil]

/-! ## Both families -/

namespace AnyRoa

def addr : AnyRoa → InetAddr
  | .v4 r => .v4 r.addr
  | .v6 r => .v6 r.addr

def prefixlen : AnyRoa → ℕ
  | .v4 r => r.prefixlen
  | .v6 r => r.prefixlen

def maxlen : AnyRoa → ℕ
  | .v4 r => r.maxlen
  | .v6 r => r.maxlen

def asnum : AnyRoa → ℕ
  | .v4 r => r.asnum
  | .v6 r => r.asnum

def Ok : AnyRoa → Prop
  | .v4 r => r.Ok
  | .v6 r => r.Ok

/-- The ROA covers the route. -/
def Covers (r : AnyRoa) (q : InetAddr) (plen : ℕ) : Prop :=
  match r, q with
  | .v4 r, .v4 a => r.Covers a plen
  | .v6 r, .v6 a => r.Covers a plen
  | _, _ => False

/-- The ROA matches the route. -/
def Matches (r : AnyRoa) (q : InetAddr) (plen as : ℕ) : Prop :=
  r.Covers q plen ∧ r.asnum = as ∧ plen ≤ r.maxlen

instance : DecidablePred Ok
  | .v4 r => inferInstanceAs (Decidable r.Ok)
  | .v6 r => inferInstanceAs (Decidable r.Ok)

instance (r : AnyRoa) (q : InetAddr) (plen : ℕ) : Decidable (r.Covers q plen) :=
  match r, q with
  | .v4 r, .v4 a => inferInstanceAs (Decidable (r.Covers a plen))
  | .v6 r, .v6 a => inferInstanceAs (Decidable (r.Covers a plen))
  | .v4 _, .v6 _ => inferInstanceAs (Decidable False)
  | .v6 _, .v4 _ => inferInstanceAs (Decidable False)

instance (r : AnyRoa) (q : InetAddr) (plen as : ℕ) : Decidable (r.Matches q plen as) :=
  inferInstanceAs (Decidable (_ ∧ _ ∧ _))

end AnyRoa

/-- `roa_cmp` -/
def roaCmp (a b : AnyRoa) : ℤ :=
  if a.addr.aid < b.addr.aid then -1
  else if a.addr.aid > b.addr.aid then 1
  else if a.addr.val > b.addr.val then 1
  else if a.addr.val < b.addr.val then -1
  else if a.prefixlen < b.prefixlen then -1
  else if a.prefixlen > b.prefixlen then 1
  else if a.asnum < b.asnum then -1
  else if a.asnum > b.asnum then 1
  else if a.maxlen < b.maxlen then -1
  else if a.maxlen > b.maxlen then 1
  else 0

/-- The order that `roa_cmp` gives within a family. -/
theorem roaCmp_le_zero {a b : AnyRoa} (h : roaCmp a b ≤ 0) (haid : a.addr.aid = b.addr.aid) :
    a.addr.val < b.addr.val ∨ a.addr.val = b.addr.val ∧ a.prefixlen ≤ b.prefixlen := by
  unfold roaCmp at h
  rcases (cmpField_le_zero ..).mp h with hlt | ⟨-, h⟩
  · omega
  rcases (cmpField_le_zero' ..).mp h with hval | ⟨hval, h⟩
  · exact Or.inl hval
  rcases (cmpField_le_zero ..).mp h with hlen | ⟨hlen, -⟩
  · exact Or.inr ⟨hval, hlen.le⟩
  · exact Or.inr ⟨hval, hlen.le⟩

/-- The ROAs of the families. -/
def roas4 (roas : List AnyRoa) : List (Roa inet) :=
  roas.filterMap fun | .v4 r => some r | .v6 _ => none

def roas6 (roas : List AnyRoa) : List (Roa inet6) :=
  roas.filterMap fun | .v4 _ => none | .v6 r => some r

theorem mem_roas4 {roas : List AnyRoa} {r : Roa inet} : r ∈ roas4 roas ↔ .v4 r ∈ roas := by
  unfold roas4
  rw [List.mem_filterMap]
  constructor
  · rintro ⟨_ | _, hr, h⟩
    · cases h
      exact hr
    · cases h
  · exact fun hr => ⟨_, hr, rfl⟩

theorem mem_roas6 {roas : List AnyRoa} {r : Roa inet6} : r ∈ roas6 roas ↔ .v6 r ∈ roas := by
  unfold roas6
  rw [List.mem_filterMap]
  constructor
  · rintro ⟨_ | _, hr, h⟩
    · cases h
    · cases h
      exact hr
  · exact fun hr => ⟨_, hr, rfl⟩

theorem sorted_roas4 {roas : List AnyRoa} (h : roas.Pairwise fun a b => roaCmp a b ≤ 0) :
    RoaSorted (roas4 roas) := by
  unfold RoaSorted roas4
  rw [List.pairwise_filterMap]
  apply h.imp
  rintro (a | a) (b | b) hle x hx y hy <;> cases hx <;> cases hy
  exact roaCmp_le_zero hle rfl

theorem sorted_roas6 {roas : List AnyRoa} (h : roas.Pairwise fun a b => roaCmp a b ≤ 0) :
    RoaSorted (roas6 roas) := by
  unfold RoaSorted roas6
  rw [List.pairwise_filterMap]
  apply h.imp
  rintro (a | a) (b | b) hle x hx y hy <;> cases hx <;> cases hy
  exact roaCmp_le_zero hle rfl

/-- The two halves of the trie head are filled independently. -/
theorem foldlM_trieRoaAdd {roas : List AnyRoa} {th th' : RoaHead}
    (h4 : (roas4 roas).foldlM roaAdd th.v4 = some th'.v4)
    (h6 : (roas6 roas).foldlM roaAdd th.v6 = some th'.v6) :
    roas.foldlM trieRoaAdd th = some th' := by
  induction roas generalizing th with
  | nil =>
    obtain ⟨t4, t6⟩ := th
    cases h4
    cases h6
    rfl
  | cons r roas ih =>
    rw [List.foldlM_cons]
    cases r with
    | v4 r =>
      rw [show roas4 (.v4 r :: roas) = r :: roas4 roas from rfl, List.foldlM_cons] at h4
      obtain ⟨t, ht, h4⟩ := Option.bind_eq_some_iff.mp h4
      have hadd : trieRoaAdd th (.v4 r) = some { th with v4 := t } := by
        show (roaAdd th.v4 r).map _ = _
        rw [ht]
        rfl
      rw [hadd]
      exact ih h4 h6
    | v6 r =>
      rw [show roas6 (.v6 r :: roas) = r :: roas6 roas from rfl, List.foldlM_cons] at h6
      obtain ⟨t, ht, h6⟩ := Option.bind_eq_some_iff.mp h6
      have hadd : trieRoaAdd th (.v6 r) = some { th with v6 := t } := by
        show (roaAdd th.v6 r).map _ = _
        rw [ht]
        rfl
      rw [hadd]
      exact ih h4 h6

/-- The check after all ROAs were added. -/
theorem trieRoaCheck_spec {roas : List AnyRoa} (hok : ∀ r ∈ roas, r.Ok)
    (hsorted : roas.Pairwise fun a b => roaCmp a b ≤ 0) :
    ∃ th, roas.foldlM trieRoaAdd {} = some th ∧ ∀ q plen as,
      Rfc6811 (∃ r ∈ roas, r.Covers q plen) (as ≠ asNone ∧ ∃ r ∈ roas, r.Matches q plen as)
        (trieRoaCheck th q plen as) := by
  have hok4 : ∀ r ∈ roas4 roas, r.Ok := fun r hr => hok _ (mem_roas4.mp hr)
  have hok6 : ∀ r ∈ roas6 roas, r.Ok := fun r hr => hok _ (mem_roas6.mp hr)
  obtain ⟨t4, h4, hholds4⟩ := roaAll_holds _ hok4 (sorted_roas4 hsorted)
  obtain ⟨t6, h6, hholds6⟩ := roaAll_holds _ hok6 (sorted_roas6 hsorted)
  refine ⟨⟨t4, t6⟩, foldlM_trieRoaAdd h4 h6, ?_⟩
  rintro (q | q) plen as
  · have hcov : (∃ r ∈ roas, r.Covers (.v4 q) plen) ↔ ∃ r ∈ roas4 roas, r.Covers q plen := by
      constructor
      · rintro ⟨r | r, hr, h⟩
        · exact ⟨r, mem_roas4.mpr hr, h⟩
        · exact h.elim
      · rintro ⟨r, hr, h⟩
        exact ⟨_, mem_roas4.mp hr, h⟩
    have hmatch : (∃ r ∈ roas, r.Matches (.v4 q) plen as) ↔
        ∃ r ∈ roas4 roas, r.Matches q plen as := by
      constructor
      · rintro ⟨r | r, hr, h⟩
        · exact ⟨r, mem_roas4.mpr hr, h⟩
        · exact h.1.elim
      · rintro ⟨r, hr, h⟩
        exact ⟨_, mem_roas4.mp hr, h⟩
    rw [hcov, hmatch]
    exact hholds4.check hok4 q plen as
  · have hcov : (∃ r ∈ roas, r.Covers (.v6 q) plen) ↔ ∃ r ∈ roas6 roas, r.Covers q plen := by
      constructor
      · rintro ⟨r | r, hr, h⟩
        · exact h.elim
        · exact ⟨r, mem_roas6.mpr hr, h⟩
      · rintro ⟨r, hr, h⟩
        exact ⟨_, mem_roas6.mp hr, h⟩
    have hmatch : (∃ r ∈ roas, r.Matches (.v6 q) plen as) ↔
        ∃ r ∈ roas6 roas, r.Matches q plen as := by
      constructor
      · rintro ⟨r | r, hr, h⟩
        · exact h.1.elim
        · exact ⟨r, mem_roas6.mpr hr, h⟩
      · rintro ⟨r, hr, h⟩
        exact ⟨_, mem_roas6.mp hr, h⟩
    rw [hcov, hmatch]
    exact hholds6.check hok6 q plen as

/-- The ROAs `roas'` are some of the ROAs `roas`, and for each ROA of `roas` there is one with
    the same prefix and AS and a length that is not smaller. -/
structure LargestMaxlen (roas roas' : List AnyRoa) : Prop where
  subset : ∀ r ∈ roas', r ∈ roas
  largest : ∀ r ∈ roas, ∃ r' ∈ roas', r'.addr = r.addr ∧ r'.prefixlen = r.prefixlen ∧
    r'.asnum = r.asnum ∧ r.maxlen ≤ r'.maxlen

theorem AnyRoa.covers_congr {r r' : AnyRoa} (haddr : r'.addr = r.addr)
    (hlen : r'.prefixlen = r.prefixlen) (q : InetAddr) (plen : ℕ) :
    r'.Covers q plen ↔ r.Covers q plen := by
  cases r with
  | v4 r =>
    cases r' with
    | v4 r' =>
      obtain haddr : r'.addr = r.addr := InetAddr.v4.inj haddr
      have hlen : r'.prefixlen = r.prefixlen := hlen
      cases q with
      | v4 q => simp only [AnyRoa.Covers, Roa.Covers, haddr, hlen]
      | v6 q => exact Iff.rfl
    | v6 r' => exact absurd haddr nofun
  | v6 r =>
    cases r' with
    | v4 r' => exact absurd haddr nofun
    | v6 r' =>
      obtain haddr : r'.addr = r.addr := InetAddr.v6.inj haddr
      have hlen : r'.prefixlen = r.prefixlen := hlen
      cases q with
      | v4 q => exact Iff.rfl
      | v6 q => simp only [AnyRoa.Covers, Roa.Covers, haddr, hlen]

theorem LargestMaxlen.covered_iff {roas roas' : List AnyRoa} (h : LargestMaxlen roas roas')
    (q : InetAddr) (plen : ℕ) :
    (∃ r ∈ roas', r.Covers q plen) ↔ ∃ r ∈ roas, r.Covers q plen := by
  constructor
  · rintro ⟨r, hr, hcov⟩
    exact ⟨r, h.subset r hr, hcov⟩
  · rintro ⟨r, hr, hcov⟩
    obtain ⟨r', hr', haddr, hlen, -, -⟩ := h.largest r hr
    exact ⟨r', hr', (AnyRoa.covers_congr haddr hlen q plen).mpr hcov⟩

theorem LargestMaxlen.matched_iff {roas roas' : List AnyRoa} (h : LargestMaxlen roas roas')
    (q : InetAddr) (plen as : ℕ) :
    (∃ r ∈ roas', r.Matches q plen as) ↔ ∃ r ∈ roas, r.Matches q plen as := by
  constructor
  · rintro ⟨r, hr, hm⟩
    exact ⟨r, h.subset r hr, hm⟩
  · rintro ⟨r, hr, hcov, has, hmax⟩
    obtain ⟨r', hr', haddr, hlen, has', hle⟩ := h.largest r hr
    exact ⟨r', hr', (AnyRoa.covers_congr haddr hlen q plen).mpr hcov, has'.trans has,
      hmax.trans hle⟩

/-- The check is the one of RFC 6811 for ROAs that come in the order of `roa_cmp`. Of several
    ROAs with the same prefix and AS, only one with the largest length matters. -/
theorem trieRoaCheck_rfc6811 {roas : List AnyRoa} (hok : ∀ r ∈ roas, r.Ok)
    (hsorted : roas.Pairwise fun a b => roaCmp a b ≤ 0) :
    ∃ th, roas.foldlM trieRoaAdd {} = some th ∧
      (∀ q plen as, Rfc6811 (∃ r ∈ roas, r.Covers q plen)
        (as ≠ asNone ∧ ∃ r ∈ roas, r.Matches q plen as) (trieRoaCheck th q plen as)) ∧
      ∀ roas', LargestMaxlen roas roas' → roas'.Pairwise (fun a b => roaCmp a b ≤ 0) →
        ∃ th', roas'.foldlM trieRoaAdd {} = some th' ∧
          ∀ q plen as, trieRoaCheck th' q plen as = trieRoaCheck th q plen as := by
  obtain ⟨th, hth, hcheck⟩ := trieRoaCheck_spec hok hsorted
  refine ⟨th, hth, hcheck, fun roas' hmax hsorted' => ?_⟩
  obtain ⟨th', hth', hcheck'⟩ := trieRoaCheck_spec (fun r hr => hok r (hmax.subset r hr)) hsorted'
  refine ⟨th', hth', fun q plen as => ?_⟩
  have h' := hcheck' q plen as
  rw [hmax.covered_iff, hmax.matched_iff] at h'
  exact h'.unique (hcheck q plen as)

/-- 10.0.0.0/8-12 and 10.0.0.0/8-16 for AS 64500, and 10.1.0.0/16 for AS 0. -/
def sampleRoas : List AnyRoa :=
  [.v4 ⟨0x0a000000#32, 8, 12, 64500⟩, .v4 ⟨0x0a000000#32, 8, 16, 64500⟩,
    .v4 ⟨0x0a010000#32, 16, 16, 0⟩]

theorem trieRoaCheck_rfc6811_sample :
    ∃ th, sampleRoas.foldlM trieRoaAdd {} = some th ∧
      trieRoaCheck th (.v4 0x0a010000#32) 16 64500 = .valid := by
  have hok : ∀ r ∈ sampleRoas, r.Ok := by decide
  obtain ⟨th, hth, hcheck, -⟩ := trieRoaCheck_rfc6811 hok (by decide)
  refine ⟨th, hth, (hcheck _ _ _).valid.mpr ⟨by decide, ?_⟩⟩
  exact ⟨_, List.mem_cons_of_mem _ (List.mem_cons_self ..), by decide⟩

end Bgpd.Rpki
