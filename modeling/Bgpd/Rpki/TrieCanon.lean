import Mathlib.Data.List.Perm.Basic
import Bgpd.Rpki.PrefixSet

/-!
# One Trie for Each Map

A well-formed trie is determined by the map that it is: branch nodes stand where prefixes part
and nowhere else. So if no insertion goes wrong, the order of the insertions cannot be seen in
the trie.

An insertion that goes wrong leaves a node below one that is as long or longer, and later
insertions do not repair this. Two prefixes, one inside the other, at different addresses go
wrong in one of their two orders.

## Main results

- `Trie.Wf.ext`: tries with the same map are the same
- `Trie.Misplaced.addWalk`, `Trie.Wf.not_misplaced`: what goes wrong can be seen for ever
- `not_lost_of_aligned`, `misplaced_pair`: when some order goes wrong
-/

namespace Bgpd.Rpki

open Bgpd.Lib

variable {w : ℕ} {δ : Type}

/-! ## Tries with the same map -/

section Canon

variable [Inhabited δ] {t t' trie0 trie1 trie0' trie1' : Trie w δ} {addr addr' : BitVec w}
  {plen plen' : ℕ} {real real' : Bool} {data data' : δ}

/-- The same data for each prefix. -/
def Trie.SameMap (t t' : Trie w δ) : Prop :=
  ∀ p l, topBits p l = p → t.get p l = t'.get p l

omit [Inhabited δ] in
theorem Trie.SameMap.symm (h : t.SameMap t') : t'.SameMap t := fun p l hp => (h p l hp).symm

omit [Inhabited δ] in
theorem Trie.SameMap.key (h : t.SameMap t') {e : BitVec w × ℕ} (he : t.Key e) : t'.Key e := by
  obtain ⟨hmask, d, hd⟩ := he
  exact ⟨hmask, d, (h _ _ hmask).symm.trans hd⟩

omit [Inhabited δ] in
/-- The same prefixes, and the same data for each of them. -/
theorem Trie.sameMap_of_keys (hkey : ∀ e, t.Key e ↔ t'.Key e)
    (hdata : ∀ (e : BitVec w × ℕ) d d', topBits e.1 e.2 = e.1 → t.get e.1 e.2 = some d →
      t'.get e.1 e.2 = some d' → d = d') : t.SameMap t' := by
  intro p l hp
  cases hd : t.get p l with
  | none =>
    by_contra hne
    obtain ⟨d', hd'⟩ := Option.ne_none_iff_exists'.mp (Ne.symm hne)
    obtain ⟨-, d, hsome⟩ := (hkey (p, l)).mpr ⟨hp, d', hd'⟩
    exact nomatch hd.symm.trans hsome
  | some d =>
    obtain ⟨-, d', hd'⟩ := (hkey (p, l)).mp ⟨hp, d, hd⟩
    rw [show t'.get p l = some d' from hd', hdata (p, l) d d' hp hd hd']

/-- A root is not longer than the root of a trie with the same map. -/
theorem Trie.Wf.root_le (hw : (Trie.node addr plen real data trie0 trie1).Wf)
    (hw' : (Trie.node addr' plen' real' data' trie0' trie1').Wf)
    (h : (Trie.node addr plen real data trie0 trie1).SameMap
      (.node addr' plen' real' data' trie0' trie1')) : plen' ≤ plen := by
  cases real with
  | true =>
    have hself := (key_node_iff hw).mpr (Or.inl ⟨rfl, rfl⟩)
    exact (hw'.key_inside (h.key hself)).1
  | false =>
    -- the prefixes of the children part at the root
    obtain ⟨-, -, hreal, -, -, hw0, hw1⟩ := id hw
    obtain ⟨e0, he0⟩ := hw0.exists_key (hreal rfl).2.1
    obtain ⟨e1, he1⟩ := hw1.exists_key (hreal rfl).2.2
    obtain ⟨hk0, hb0⟩ := key_of_child hw false he0
    obtain ⟨hk1, hb1⟩ := key_of_child hw true he1
    by_contra hlt
    have htop : topBits e0.1 plen' = topBits e1.1 plen' :=
      (hw'.key_inside (h.key hk0)).2.trans (hw'.key_inside (h.key hk1)).2.symm
    have hbit := topBits_eq_iff.mp htop plen (by omega)
    rw [hb0, hb1] at hbit
    exact Bool.false_ne_true hbit

/-- What a child holds is what its parent holds on the side of the child. -/
theorem Trie.Wf.child_get (hw : (Trie.node addr plen real data trie0 trie1).Wf) (side : Bool)
    {p : BitVec w} {l : ℕ} (hp : topBits p l = p) :
    (if side then trie1 else trie0).get p l =
      if plen < l ∧ p.getMsbD plen = side then
        (Trie.node addr plen real data trie0 trie1).get p l
      else none := by
  obtain ⟨hc, hwc⟩ := hw.child side
  by_cases h : plen < l ∧ p.getMsbD plen = side
  · rw [if_pos h, get_node_gt h.1, h.2]
  · rw [if_neg h]
    by_contra hne
    obtain ⟨d, hd⟩ := Option.ne_none_iff_exists'.mp hne
    obtain ⟨hlt, -, hbit⟩ := hc.get_inside hwc hp hd
    exact h ⟨hlt, hbit⟩

/-- Tries with the same map are the same. -/
theorem Trie.Wf.ext (hw : t.Wf) (hw' : t'.Wf) (h : t.SameMap t') : t = t' := by
  induction t generalizing t' with
  | nil =>
    cases t' with
    | nil => rfl
    | node addr' plen' real' data' trie0' trie1' =>
      obtain ⟨e, he⟩ := hw'.exists_key nofun
      obtain ⟨-, d, hd⟩ := h.symm.key he
      exact nomatch hd
  | node addr plen real data trie0 trie1 ih0 ih1 =>
    cases t' with
    | nil =>
      obtain ⟨e, he⟩ := hw.exists_key nofun
      obtain ⟨-, d, hd⟩ := h.key he
      exact nomatch hd
    | node addr' plen' real' data' trie0' trie1' =>
      obtain rfl : plen = plen' := le_antisymm (hw'.root_le hw h.symm) (hw.root_le hw' h)
      obtain ⟨e, he⟩ := hw.exists_key nofun
      obtain rfl : addr = addr' :=
        (hw.key_inside he).2.symm.trans (hw'.key_inside (h.key he)).2
      have hchild : ∀ side : Bool, (if side then trie1 else trie0).SameMap
          (if side then trie1' else trie0') := by
        intro side p l hp
        rw [hw.child_get side hp, hw'.child_get side hp, h p l hp]
      obtain rfl : trie0 = trie0' :=
        ih0 (hw.child false).2 (hw'.child false).2 (hchild false)
      obtain rfl : trie1 = trie1' :=
        ih1 (hw.child true).2 (hw'.child true).2 (hchild true)
      have hself := h addr plen hw.2.1
      rw [get_node_eq, get_node_eq] at hself
      cases real <;> cases real'
      · rw [(hw.2.2.1 rfl).1, (hw'.2.2.1 rfl).1]
      · simp at hself
      · simp at hself
      · simp only [and_self, if_true, Option.some.injEq] at hself
        rw [hself]

end Canon

/-! ## What goes wrong stays wrong -/

/-- There is a node that is no longer than `l`. -/
def Trie.Has (l : ℕ) : Trie w δ → Prop
  | .nil => False
  | .node _ plen _ _ trie0 trie1 => plen ≤ l ∨ trie0.Has l ∨ trie1.Has l

/-- There is a node below one that is as long or longer. -/
def Trie.Misplaced : Trie w δ → Prop
  | .nil => False
  | .node _ plen _ _ trie0 trie1 =>
    trie0.Has plen ∨ trie1.Has plen ∨ trie0.Misplaced ∨ trie1.Misplaced

theorem Trie.ChildOf.not_has [Inhabited δ] {t : Trie w δ} {addr : BitVec w} {plen l : ℕ}
    {side : Bool} (hc : t.ChildOf addr plen side) (hw : t.Wf) (hl : l ≤ plen) : ¬t.Has l := by
  induction t generalizing addr plen side with
  | nil => exact id
  | node addr' plen' real data trie0 trie1 ih0 ih1 =>
    have hlt := hc.1
    rintro (hle | h0 | h1)
    · omega
    · exact ih0 (hw.child false).1 (hw.child false).2 (by omega) h0
    · exact ih1 (hw.child true).1 (hw.child true).2 (by omega) h1

theorem Trie.Wf.not_misplaced [Inhabited δ] {t : Trie w δ} (hw : t.Wf) : ¬t.Misplaced := by
  induction t with
  | nil => exact id
  | node addr plen real data trie0 trie1 ih0 ih1 =>
    obtain ⟨hc0, hw0⟩ := hw.child false
    obtain ⟨hc1, hw1⟩ := hw.child true
    rintro (h | h | h | h)
    · exact hc0.not_has hw0 le_rfl h
    · exact hc1.not_has hw1 le_rfl h
    · exact ih0 hw0 h
    · exact ih1 hw1 h

section Fork

variable {x y : Trie w δ} {addr : BitVec w} {plen l : ℕ} {real side : Bool} {data : δ}

theorem has_fork_iff : (Trie.fork addr plen real data side x y).Has l ↔
    plen ≤ l ∨ x.Has l ∨ y.Has l := by
  rw [fork_eq]
  cases side with
  | false => exact Iff.rfl
  | true => exact or_congr_right or_comm

theorem misplaced_fork_iff : (Trie.fork addr plen real data side x y).Misplaced ↔
    (x.Has plen ∨ y.Has plen) ∨ x.Misplaced ∨ y.Misplaced := by
  rw [fork_eq, or_assoc]
  cases side with
  | false => exact Iff.rfl
  | true =>
    show y.Has plen ∨ x.Has plen ∨ y.Misplaced ∨ x.Misplaced ↔ _
    rw [or_left_comm, or_comm (a := y.Misplaced)]

/-- A node is the fork with its two children, whichever is named first. -/
theorem node_eq_fork (side : Bool) (trie0 trie1 : Trie w δ) :
    Trie.node addr plen real data trie0 trie1 = .fork addr plen real data side
      (if side then trie1 else trie0) (if side then trie0 else trie1) := by
  rw [fork_eq]
  cases side <;> rfl

end Fork

section Add

variable [Inhabited δ] {fam : Family} {upd : δ → δ} {t : Trie fam.bits δ} {p : BitVec fam.bits}
  {plen l : ℕ}

/-- An insertion keeps the nodes. -/
theorem Trie.Has.addWalk (h : t.Has l) : (trieAddWalk fam upd p plen t).Has l := by
  induction t with
  | nil => exact h.elim
  | node addr nplen real data trie0 trie1 ih0 ih1 =>
    by_cases hoff : addr ≠ topBits p (min nplen plen)
    · rw [addWalk_off hoff]
      exact has_fork_iff.mpr (Or.inr (Or.inl h))
    rw [not_not] at hoff
    obtain hlt | rfl | hlt := lt_trichotomy nplen plen
    · rw [Nat.min_eq_left hlt.le] at hoff
      rw [addWalk_below hoff hlt]
      rw [node_eq_fork (p.getMsbD nplen), has_fork_iff] at h
      refine has_fork_iff.mpr (h.imp_right (Or.imp_left fun hx => ?_))
      cases hbit : p.getMsbD nplen <;> rw [hbit] at hx
      · exact ih0 hx
      · exact ih1 hx
    · rw [Nat.min_self] at hoff
      rw [addWalk_same hoff]
      exact h
    · rw [Nat.min_eq_right hlt.le] at hoff
      rw [addWalk_above hoff hlt]
      exact has_fork_iff.mpr (Or.inr (Or.inl h))

/-- An insertion keeps what is below what. -/
theorem Trie.Misplaced.addWalk (h : t.Misplaced) : (trieAddWalk fam upd p plen t).Misplaced := by
  induction t with
  | nil => exact h.elim
  | node addr nplen real data trie0 trie1 ih0 ih1 =>
    by_cases hoff : addr ≠ topBits p (min nplen plen)
    · rw [addWalk_off hoff]
      exact misplaced_fork_iff.mpr (Or.inr (Or.inl h))
    rw [not_not] at hoff
    obtain hlt | rfl | hlt := lt_trichotomy nplen plen
    · rw [Nat.min_eq_left hlt.le] at hoff
      rw [addWalk_below hoff hlt]
      rw [node_eq_fork (p.getMsbD nplen), misplaced_fork_iff] at h
      refine misplaced_fork_iff.mpr
        (h.imp (Or.imp_left Trie.Has.addWalk) (Or.imp_left fun hx => ?_))
      cases hbit : p.getMsbD nplen <;> rw [hbit] at hx
      · exact ih0 hx
      · exact ih1 hx
    · rw [Nat.min_self] at hoff
      rw [addWalk_same hoff]
      exact h
    · rw [Nat.min_eq_right hlt.le] at hoff
      rw [addWalk_above hoff hlt]
      exact misplaced_fork_iff.mpr (Or.inr (Or.inl h))

/-- A prefix that is added right behind one inside it, at another address, goes wrong. -/
theorem misplaced_pair {upd' : δ → δ} {e : BitVec fam.bits} {elen : ℕ} (hp : topBits p plen = p)
    (hin : Inside p plen (e, elen)) (hne : e ≠ p) :
    (trieAddWalk fam upd p plen (trieAddWalk fam upd' e elen .nil)).Misplaced := by
  obtain ⟨hlt, htop⟩ := hin
  dsimp only at hlt htop
  have hmin : topBits p (min elen plen) = p := by rw [Nat.min_eq_right hlt.le, hp]
  have hoff : e ≠ topBits p (min elen plen) := by rwa [hmin]
  have hk := fam.firstDiff _ _ hoff
  show (trieAddWalk fam upd p plen (.node e elen true (upd' default) .nil .nil)).Misplaced
  rw [addWalk_off hoff]
  rw [hmin] at hk ⊢
  generalize fam.findmsb e p = k at hk ⊢
  refine misplaced_fork_iff.mpr (Or.inl (Or.inr (Or.inl ?_)))
  -- the addresses part behind the shorter prefix
  by_contra h
  apply hk.differ
  rw [← htop, getMsbD_topBits, decide_eq_true (by omega), Bool.and_true]

end Add

/-! ## Prefixes that no order loses -/

/-- Of two prefixes, one inside the other, both have the same address. -/
def KeysAligned (K : BitVec w × ℕ → Prop) : Prop :=
  ∀ p e, K p → K e → Inside p.1 p.2 e → e.1 = p.1

theorem not_lost_of_aligned {K K' : BitVec w × ℕ → Prop} (h : KeysAligned K)
    (hsub : ∀ e, K' e → K e) {p : BitVec w × ℕ} (hp : K p) (hmask : topBits p.1 p.2 = p.1) :
    ¬Lost K' p.1 p.2 := by
  rintro ⟨-, ⟨e, he, hin⟩, j, hj, hall⟩
  have hbit := (hall e he hin).2.2
  rw [h p e hp (hsub e he) hin, (eq_topBits_iff.mp hmask.symm).2 j hj] at hbit
  exact Bool.false_ne_true hbit

/-- The order of prefixes by their address and their length. -/
def keyLe (x y : BitVec w × ℕ) : Prop :=
  x.1.toNat < y.1.toNat ∨ x.1.toNat = y.1.toNat ∧ x.2 ≤ y.2

instance : DecidableRel (keyLe (w := w)) :=
  fun _ _ => inferInstanceAs (Decidable (_ ∨ _ ∧ _))

theorem keyLe_trans {x y z : BitVec w × ℕ} (hxy : keyLe x y) (hyz : keyLe y z) : keyLe x z := by
  unfold keyLe at *
  omega

theorem keyLe_total (x y : BitVec w × ℕ) : keyLe x y ∨ keyLe y x := by
  unfold keyLe
  omega

/-- In this order no prefix comes behind one inside it. -/
theorem not_lost_of_keyLe {K : BitVec w × ℕ → Prop} {p : BitVec w × ℕ}
    (h : ∀ e, K e → keyLe e p) : ¬Lost K p.1 p.2 := by
  rintro ⟨-, ⟨e, he, hlt, htop⟩, -⟩
  have hle := h e he
  have hge : p.1.toNat ≤ e.1.toNat := by
    rw [← htop]
    exact toNat_topBits_le e.1 p.2
  unfold keyLe at hle
  omega

/-- A list can be put in the order of the prefixes of its elements. -/
theorem exists_perm_keyLe {α : Type} (key : α → BitVec w × ℕ) (l : List α) :
    ∃ l' : List α, l'.Perm l ∧ l'.Pairwise fun a b => keyLe (key a) (key b) := by
  refine ⟨l.mergeSort fun a b => keyLe (key a) (key b), List.mergeSort_perm l _, ?_⟩
  refine (List.pairwise_mergeSort ?_ ?_ l).imp fun h => of_decide_eq_true h
  · intro a b c hab hbc
    exact decide_eq_true (keyLe_trans (of_decide_eq_true hab) (of_decide_eq_true hbc))
  · intro a b
    rw [Bool.or_eq_true, decide_eq_true_iff, decide_eq_true_iff]
    exact keyLe_total _ _

/-- Every order of what a list has of one kind comes from an order of the list. -/
theorem exists_perm_filterMap {α β : Type} (f : α → Option β) {l : List α} {m : List β}
    (h : m.Perm (l.filterMap f)) : ∃ l' : List α, l'.Perm l ∧ l'.filterMap f = m := by
  induction m generalizing l with
  | nil => exact ⟨l, List.Perm.refl l, h.nil_eq.symm⟩
  | cons b m ih =>
    obtain ⟨a, ha, hb⟩ := List.mem_filterMap.mp (h.mem_iff.mp List.mem_cons_self)
    obtain ⟨l₁, l₂, rfl⟩ := List.append_of_mem ha
    have hmid : (l₁ ++ a :: l₂).Perm (a :: (l₁ ++ l₂)) := List.perm_middle
    have hrest : m.Perm ((l₁ ++ l₂).filterMap f) := by
      have := h.trans (hmid.filterMap f)
      rw [List.filterMap_cons_some hb] at this
      exact this.cons_inv
    obtain ⟨l', hl', hm⟩ := ih hrest
    exact ⟨a :: l', (hl'.cons a).trans hmid.symm, by rw [List.filterMap_cons_some hb, hm]⟩

/-- Two elements of a list can be put in front. -/
theorem exists_perm_pair {α : Type} {l : List α} {a b : α} (ha : a ∈ l) (hb : b ∈ l) (hne : a ≠ b) :
    ∃ l', (a :: b :: l').Perm l := by
  obtain ⟨l₁, l₂, rfl⟩ := List.append_of_mem ha
  have hb' : b ∈ l₁ ++ l₂ := by
    simp only [List.mem_append, List.mem_cons] at hb ⊢
    exact hb.imp_right fun h => h.resolve_left hne.symm
  obtain ⟨m₁, m₂, hm⟩ := List.append_of_mem hb'
  refine ⟨m₁ ++ m₂, List.Perm.symm (List.perm_middle.trans (List.Perm.cons a ?_))⟩
  rw [hm]
  exact List.perm_middle

end Bgpd.Rpki
