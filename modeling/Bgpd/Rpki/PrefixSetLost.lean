import Bgpd.Rpki.PrefixSet

/-!
# Lost Items of a Prefix Set

If an item of a prefix set gets lost, there are ranges for the same prefixes under which
`trie_match` does not answer as the items say: the ranges of all other items leave out a
length, and for this length a walk that does not reach the lost item finds nothing. Items that
are added later do not change that.

With the other direction this says for which prefixes `trie_match` means what the items say,
for sets with addresses of both families that are added in the order of `prefixset_cmp`.

## Main results

- `exists_hidden`, `match_false_addWalk`: what a lost item hides stays hidden
- `exists_unmatched`: the ranges and the address
- `meansItems_of_kept`: a set means what it says if no item with a node gets lost
- `prefixset_match_iff`: with the ranges left open, that no prefix gets lost is needed as well
-/

namespace Bgpd.Rpki

open Bgpd.Lib

variable {fam : Family}

/-! ## A lost prefix is not matched -/

section Hidden

variable {upd : BitVec fam.bits → BitVec fam.bits} {t trie0 trie1 : Trie fam.bits (BitVec fam.bits)}
  {p q addr data : BitVec fam.bits} {plen nplen qlen b : ℕ} {real : Bool}

/-- All nodes, or only the branch nodes, have a bit of `plenmask` cleared. -/
def Trie.NoBit (onlyBranch : Bool) (b : ℕ) : Trie fam.bits (BitVec fam.bits) → Prop
  | .nil => True
  | .node _ _ real data trie0 trie1 =>
    (onlyBranch && real = true ∨ data.getMsbD b = false) ∧ trie0.NoBit onlyBranch b ∧
      trie1.NoBit onlyBranch b

theorem Trie.NoBit.fork {ob side : Bool} {x y : Trie fam.bits (BitVec fam.bits)}
    (hself : ob && real = true ∨ data.getMsbD b = false) (hx : x.NoBit ob b) (hy : y.NoBit ob b) :
    (Trie.fork addr plen real data side x y).NoBit ob b := by
  rw [fork_eq]
  cases side with
  | false => exact ⟨hself, hx, hy⟩
  | true => exact ⟨hself, hy, hx⟩

/-- An insertion that does not set the bit. In real nodes it may do so if these do not count. -/
theorem Trie.NoBit.addWalk {ob : Bool}
    (hupd : ob = true ∨ ∀ d, d.getMsbD b = false → (upd d).getMsbD b = false)
    (h : t.NoBit ob b) : (trieAddWalk fam upd p plen t).NoBit ob b := by
  have hzero : (default : BitVec fam.bits).getMsbD b = false := BitVec.getMsbD_zero
  have hset : ∀ d, d.getMsbD b = false → ob && true = true ∨ (upd d).getMsbD b = false := by
    intro d hd
    exact hupd.imp (fun hob => by simp [hob]) (fun h => h d hd)
  have hnew : (Trie.new upd p plen).NoBit ob b := ⟨hset _ hzero, trivial, trivial⟩
  induction t with
  | nil => exact hnew
  | node addr nplen real data trie0 trie1 ih0 ih1 =>
    obtain ⟨hself, h0, h1⟩ := id h
    by_cases hoff : addr ≠ topBits p (min nplen plen)
    · rw [addWalk_off hoff]
      exact Trie.NoBit.fork (Or.inr hzero) h hnew
    rw [not_not] at hoff
    obtain hlt | rfl | hlt := lt_trichotomy nplen plen
    · rw [Nat.min_eq_left hlt.le] at hoff
      rw [addWalk_below hoff hlt]
      apply Trie.NoBit.fork hself
      · split
        · exact ih1 h1
        · exact ih0 h0
      · split
        · exact h0
        · exact h1
    · rw [Nat.min_self] at hoff
      rw [addWalk_same hoff]
      refine ⟨?_, h0, h1⟩
      rcases hself with hob | hdata
      · exact Or.inl (by simp_all)
      · exact hset _ hdata
    · rw [Nat.min_eq_right hlt.le] at hoff
      rw [addWalk_above hoff hlt]
      exact Trie.NoBit.fork (hset _ hzero) h trivial

theorem matchWalk_node :
    trieMatchWalk q qlen false (.node addr nplen real data trie0 trie1) =
      (decide (nplen ≤ qlen ∧ addr = topBits q nplen ∧ nplen ≠ fam.bits) &&
          (if q.getMsbD nplen then trieMatchWalk q qlen false trie1
          else trieMatchWalk q qlen false trie0) ||
        (decide (nplen ≤ qlen ∧ addr = topBits q nplen) && (real && data.getMsbD (qlen - 1)))) := by
  rw [trieMatchWalk, Bool.and_false, if_neg Bool.false_ne_true]
  by_cases hle : nplen > qlen
  · simp [hle, Nat.not_le.mpr hle]
  by_cases hon : addr = topBits q nplen
  · by_cases hfull : nplen = fam.bits
    · subst hfull
      cases real && data.getMsbD (qlen - 1) <;> simp [hle, hon, Nat.le_of_not_lt hle]
    · cases real && data.getMsbD (qlen - 1) <;> simp [hle, hon, hfull, Nat.le_of_not_lt hle]
  · simp [hle, hon]

theorem matchWalk_node_false (hself : (real && data.getMsbD (qlen - 1)) = false)
    (hnext : (if q.getMsbD nplen then trieMatchWalk q qlen false trie1
      else trieMatchWalk q qlen false trie0) = false) :
    trieMatchWalk q qlen false (.node addr nplen real data trie0 trie1) = false := by
  rw [matchWalk_node, hself, hnext, Bool.and_false, Bool.and_false, Bool.or_false]

theorem matchWalk_fork_false {side : Bool} {x y : Trie fam.bits (BitVec fam.bits)}
    (hself : (real && data.getMsbD (qlen - 1)) = false)
    (hx : q.getMsbD nplen = side → trieMatchWalk q qlen false x = false)
    (hy : q.getMsbD nplen = !side → trieMatchWalk q qlen false y = false) :
    trieMatchWalk q qlen false (Trie.fork addr nplen real data side x y) = false := by
  rw [fork_eq]
  apply matchWalk_node_false hself
  cases side <;> cases hq : q.getMsbD nplen <;> simp_all

theorem Trie.NoBit.match_false (h : t.NoBit false (qlen - 1)) :
    trieMatchWalk q qlen false t = false := by
  induction t with
  | nil => rfl
  | node addr nplen real data trie0 trie1 ih0 ih1 =>
    obtain ⟨hself, h0, h1⟩ := h
    have hdata : data.getMsbD (qlen - 1) = false := by simpa using hself
    apply matchWalk_node_false
    · rw [hdata, Bool.and_false]
    · split
      · exact ih1 h1
      · exact ih0 h0

/-- Right after a prefix got lost, an address inside it is not matched. -/
theorem exists_hidden (upd : BitVec fam.bits → BitVec fam.bits) (hno : t.NoBit false (qlen - 1))
    (hp : topBits p plen = p)
    (hok : ¬t.AddOk p plen) :
    ∃ q, topBits q plen = p ∧ trieMatchWalk q qlen false (trieAddWalk fam upd p plen t) =
      false := by
  induction t with
  | nil => exact absurd trivial hok
  | node addr nplen real data trie0 trie1 ih0 ih1 =>
    -- the node itself does not match this length
    have hself : (real && data.getMsbD (qlen - 1)) = false := by
      have : data.getMsbD (qlen - 1) = false := by simpa using hno.1
      rw [this, Bool.and_false]
    rw [Trie.AddOk] at hok
    split at hok
    · next hlt =>
      obtain ⟨htop, hne⟩ := Classical.not_imp.mp hok
      have hmin : topBits p (min nplen plen) = p := by rw [Nat.min_eq_right hlt.le, hp]
      have hoff : addr ≠ topBits p (min nplen plen) := by rwa [hmin]
      have hk := fam.firstDiff _ _ hoff
      rw [addWalk_off hoff]
      rw [hmin] at hk ⊢
      generalize fam.findmsb addr p = k at hk ⊢
      -- the addresses part behind the new prefix, where the node has a one bit
      have hplen : plen ≤ k := by
        by_contra h
        apply hk.differ
        rw [← htop, getMsbD_topBits, decide_eq_true (by omega), Bool.and_true]
      have hzero := (eq_topBits_iff.mp hp.symm).2
      have hbit : addr.getMsbD k = true := by
        have := hk.differ
        rw [hzero k hplen] at this
        simpa using this
      -- the query leaves the new prefix where the addresses part
      refine ⟨setbit p k, ?_, ?_⟩
      · rw [eq_comm, eq_topBits_iff]
        refine ⟨fun i hi => ?_, hzero⟩
        rw [getMsbD_setbit p hk.lt, decide_eq_false (by omega), Bool.or_false]
      · apply matchWalk_fork_false rfl
        · exact fun _ => hno.match_false
        · intro hq
          rw [hbit, getMsbD_setbit p hk.lt] at hq
          simp at hq
    · split at hok
      · next hge hbelow =>
        obtain ⟨hlt, haddr⟩ := hbelow
        rw [addWalk_below haddr hlt]
        -- the prefix is hidden further down
        have hex : ∃ q, topBits q plen = p ∧ trieMatchWalk q qlen false
            (trieAddWalk fam upd p plen (if p.getMsbD nplen then trie1 else trie0)) = false := by
          split
          · next hb => rw [if_pos hb] at hok; exact ih1 hno.2.2 hok
          · next hb => rw [if_neg hb] at hok; exact ih0 hno.2.1 hok
        obtain ⟨q, hq, hfalse⟩ := hex
        refine ⟨q, hq, matchWalk_fork_false hself (fun _ => hfalse) fun hother => ?_⟩
        -- the address is on the side of the new prefix
        rw [← hq, getMsbD_topBits, decide_eq_true hlt, Bool.and_true] at hother
        simp at hother
      · exact absurd trivial hok

/-- What is not matched is not matched because of an item with another range either. -/
theorem match_false_addWalk (hupd : ∀ d, (upd d).getMsbD (qlen - 1) = d.getMsbD (qlen - 1))
    (hbr : t.NoBit true (qlen - 1)) (h : trieMatchWalk q qlen false t = false) :
    trieMatchWalk q qlen false (trieAddWalk fam upd p plen t) = false := by
  have hzero : (default : BitVec fam.bits).getMsbD (qlen - 1) = false := BitVec.getMsbD_zero
  have hnew : trieMatchWalk q qlen false (Trie.new upd p plen) = false := by
    apply matchWalk_node_false
    · rw [hupd, hzero, Bool.and_false]
    · split <;> rfl
  induction t with
  | nil => exact hnew
  | node addr nplen real data trie0 trie1 ih0 ih1 =>
    by_cases hoff : addr ≠ topBits p (min nplen plen)
    · rw [addWalk_off hoff]
      exact matchWalk_fork_false rfl (fun _ => h) (fun _ => hnew)
    rw [not_not] at hoff
    obtain hlt | rfl | hlt := lt_trichotomy nplen plen
    · rw [Nat.min_eq_left hlt.le] at hoff
      rw [addWalk_below hoff hlt, fork_eq, matchWalk_node]
      rw [matchWalk_node] at h
      obtain ⟨hnext, hself⟩ := Bool.or_eq_false_iff.mp h
      rw [hself, Bool.or_false]
      -- the walk goes on below the node, or it does not go on at all
      rcases Bool.and_eq_false_iff.mp hnext with hstop | hnext
      · rw [hstop, Bool.false_and]
      · have hchild : (if q.getMsbD nplen then
              trieMatchWalk q qlen false (if p.getMsbD nplen then
                trieAddWalk fam upd p plen (if p.getMsbD nplen then trie1 else trie0)
              else (if p.getMsbD nplen then trie0 else trie1))
            else trieMatchWalk q qlen false (if p.getMsbD nplen then
                (if p.getMsbD nplen then trie0 else trie1)
              else trieAddWalk fam upd p plen (if p.getMsbD nplen then trie1 else trie0))) =
                false := by
          cases hq : q.getMsbD nplen <;> cases hside : p.getMsbD nplen <;> rw [hq] at hnext
          · exact ih0 hbr.2.1 hnext
          · exact hnext
          · exact hnext
          · exact ih1 hbr.2.2 hnext
        rw [hchild, Bool.and_false]
    · rw [Nat.min_self] at hoff
      rw [addWalk_same hoff, matchWalk_node, hupd]
      rw [matchWalk_node] at h
      obtain ⟨hnext, hself⟩ := Bool.or_eq_false_iff.mp h
      rw [hnext, Bool.false_or, Bool.true_and]
      -- a branch node that becomes a real one has no range
      rcases Bool.and_eq_false_iff.mp hself with hstop | hself
      · rw [hstop, Bool.false_and]
      · cases real with
        | true => rw [Bool.true_and] at hself; rw [hself, Bool.and_false]
        | false =>
          have : data.getMsbD (qlen - 1) = false := by simpa using hbr.1
          rw [this, Bool.and_false]
    · rw [Nat.min_eq_right hlt.le] at hoff
      rw [addWalk_above hoff hlt]
      refine matchWalk_fork_false ?_ (fun _ => h) (fun _ => rfl)
      rw [hupd, hzero, Bool.and_false]

end Hidden

/-! ## Ranges under which the loss shows -/

/-- The item leaves out a length. -/
def Item.Quiet (qlen : ℕ) (i : Item fam) : Prop := i.Ok ∧ (i.Adds → qlen < i.lenMin)

theorem Item.Quiet.setRange {i : Item fam} {qlen : ℕ} (h : i.Quiet qlen) (hadds : i.Adds)
    (hpos : 1 ≤ qlen) (d : BitVec fam.bits) :
    (Rpki.setRange d (max 1 i.lenMin) i.lenMax).getMsbD (qlen - 1) = d.getMsbD (qlen - 1) := by
  have := h.2 hadds
  rw [getMsbD_setRange _ (by omega) h.1.2.2, decide_eq_false (by omega), Bool.or_false]

theorem addItem_root (th : TrieRoot fam) {i : Item fam} (hi : i.Ok) :
    (¬i.Adds ∧ (th.addItem i).root = th.root) ∨
      (i.Adds ∧ (th.addItem i).root = trieAddWalk fam (setRange · (max 1 i.lenMin) i.lenMax)
        (topBits i.addr i.len) i.len th.root) := by
  rw [addItem_eq th hi]
  by_cases hadds : i.Adds
  · exact Or.inr ⟨hadds, if_neg hadds⟩
  · exact Or.inl ⟨hadds, if_pos (not_not.mp hadds)⟩

section Quiet

variable {items : List (Item fam)} {q : BitVec fam.bits} {qlen : ℕ}

/-- Items that leave out the length keep what is not matched so. -/
theorem quiet_match_false (hquiet : ∀ i ∈ items, i.Quiet qlen) (hpos : 1 ≤ qlen)
    (th : TrieRoot fam) (hbr : th.root.NoBit true (qlen - 1))
    (h : trieMatchWalk q qlen false th.root = false) :
    trieMatchWalk q qlen false (items.foldl TrieRoot.addItem th).root = false := by
  induction items generalizing th with
  | nil => exact h
  | cons i items ih =>
    have hi := hquiet i (List.mem_cons_self ..)
    have hstep : (th.addItem i).root.NoBit true (qlen - 1) ∧
        trieMatchWalk q qlen false (th.addItem i).root = false := by
      obtain ⟨-, hroot⟩ | ⟨hadds, hroot⟩ := addItem_root th hi.1
      · rw [hroot]
        exact ⟨hbr, h⟩
      · rw [hroot]
        exact ⟨hbr.addWalk (Or.inl rfl), match_false_addWalk (hi.setRange hadds hpos) hbr h⟩
    exact ih (fun j hj => hquiet j (List.mem_cons_of_mem _ hj)) _ hstep.1 hstep.2

theorem quiet_noBit (hquiet : ∀ i ∈ items, i.Quiet qlen) (hpos : 1 ≤ qlen) (th : TrieRoot fam)
    {ob : Bool} (h : th.root.NoBit ob (qlen - 1)) :
    (items.foldl TrieRoot.addItem th).root.NoBit ob (qlen - 1) := by
  induction items generalizing th with
  | nil => exact h
  | cons i items ih =>
    have hi := hquiet i (List.mem_cons_self ..)
    apply ih fun j hj => hquiet j (List.mem_cons_of_mem _ hj)
    obtain ⟨-, hroot⟩ | ⟨hadds, hroot⟩ := addItem_root th hi.1
    · rw [hroot]
      exact h
    · rw [hroot]
      apply h.addWalk (Or.inr fun d hd => ?_)
      rw [hi.setRange hadds hpos, hd]

end Quiet

/-- Before the lost prefix: only host routes, or only the default route. -/
def earlyItem (x : RawPrefix fam) : Item fam :=
  if x.2 = 0 then ⟨x.1, 0, 0, 0⟩ else ⟨x.1, x.2, fam.bits, fam.bits⟩

/-- The lost prefix: only its own length, or one bit. -/
def lostItem (x : RawPrefix fam) : Item fam := ⟨x.1, x.2, max 1 x.2, max 1 x.2⟩

/-- Behind the lost prefix: only host routes. -/
def lateItem (x : RawPrefix fam) : Item fam := ⟨x.1, x.2, fam.bits, fam.bits⟩

theorem earlyItem_raw (x : RawPrefix fam) : (earlyItem x).raw = x := by
  unfold earlyItem Item.raw
  split
  · next h => rw [← h]
  · rfl

theorem earlyItem_adds (x : RawPrefix fam) : (earlyItem x).Adds ↔ x.2 ≠ 0 := by
  have := fam.one_lt_bits
  unfold earlyItem Item.Adds
  split
  · next h => simp [h]
  · next h =>
    refine iff_of_true (fun hno => ?_) h
    have : fam.bits = 0 := hno.1
    omega

theorem earlyItem_quiet {x : RawPrefix fam} (hx : x.2 ≤ fam.bits) {qlen : ℕ}
    (hq : qlen < fam.bits) :
    (earlyItem x).Quiet qlen := by
  refine ⟨?_, fun hadds => ?_⟩
  · unfold earlyItem
    split
    · exact ⟨le_rfl, le_rfl, Nat.zero_le _⟩
    · exact ⟨hx, le_rfl, le_rfl⟩
  · rw [earlyItem, if_neg ((earlyItem_adds x).mp hadds)]
    exact hq

theorem lateItem_quiet {x : RawPrefix fam} (hx : x.2 ≤ fam.bits) {qlen : ℕ} (hq : qlen < fam.bits) :
    (lateItem x).Quiet qlen :=
  ⟨⟨hx, le_rfl, le_rfl⟩, fun _ => hq⟩

/-- The first prefix that gets lost. -/
theorem exists_first_lost {L : List (RawPrefix fam)} (h : ¬NeverLost L) :
    ∃ L₁ x L₂, L = L₁ ++ x :: L₂ ∧ NeverLost L₁ ∧ Lost (NodeFor L₁) (topBits x.1 x.2) x.2 := by
  induction L using List.reverseRecOn with
  | nil => exact absurd (fun L₁ x L₂ hL => by simp at hL) h
  | append_singleton L y ih =>
    by_cases hL : NeverLost L
    · refine ⟨L, y, [], rfl, hL, ?_⟩
      by_contra hno
      apply h
      intro L₁ x L₂ heq
      rcases List.eq_nil_or_concat L₂ with rfl | ⟨L₂', z, rfl⟩
      · obtain ⟨rfl, hy⟩ := List.append_inj' heq rfl
        cases hy
        exact hno
      · rw [List.concat_eq_append, ← List.cons_append, ← List.append_assoc] at heq
        exact hL L₁ x L₂' (List.append_inj' heq rfl).1
    · obtain ⟨L₁, x, L₂, rfl, h₁, h₂⟩ := ih hL
      exact ⟨L₁, x, L₂ ++ [y], by simp, h₁, h₂⟩

/-- If a prefix gets lost, there are ranges and an address for which `trie_match` does not
    answer as the items say. -/
theorem exists_unmatched {L₁ L₂ : List (RawPrefix fam)} {x : RawPrefix fam}
    (hlen : ∀ y ∈ L₁ ++ x :: L₂, y.2 ≤ fam.bits) (hnever : NeverLost L₁)
    (hlost : Lost (NodeFor L₁) (topBits x.1 x.2) x.2) :
    max 1 x.2 ≤ fam.bits ∧ ∃ q, (lostItem x).Covers q (max 1 x.2) ∧
      (addAll (L₁.map earlyItem ++ lostItem x :: L₂.map lateItem)).match q (max 1 x.2) false =
        false := by
  have hlen₁ : ∀ y ∈ L₁, y.2 ≤ fam.bits := fun y hy => hlen y (List.mem_append_left _ hy)
  have hlen₂ : ∀ y ∈ L₂, y.2 ≤ fam.bits :=
    fun y hy => hlen y (List.mem_append_right _ (List.mem_cons_of_mem _ hy))
  -- a prefix is only lost behind a longer one, so there are lengths left
  have hq : max 1 x.2 < fam.bits := by
    obtain ⟨e, ⟨y, hy, -, rfl⟩, hin, -⟩ := hlost.inside
    have := hlen₁ y hy
    have := fam.one_lt_bits
    dsimp only at hin
    omega
  have hearly : ∀ i ∈ L₁.map earlyItem, i.Quiet (max 1 x.2) := by
    rintro i hi
    obtain ⟨y, hy, rfl⟩ := List.mem_map.mp hi
    exact earlyItem_quiet (hlen₁ y hy) hq
  -- items that come later answer nothing at this length
  have hlate : ∀ i ∈ L₂.map lateItem, i.Quiet (max 1 x.2) := by
    rintro i hi
    obtain ⟨y, hy, rfl⟩ := List.mem_map.mp hi
    exact lateItem_quiet (hlen₂ y hy) hq
  have hraw : (L₁.map earlyItem).map Item.raw = L₁ := by
    rw [List.map_map]
    exact (List.map_congr_left fun y _ => earlyItem_raw y).trans (List.map_id _)
  have hholds := addAll_holds (L₁.map earlyItem) (fun i hi => (hearly i hi).1) (by rwa [hraw])
  -- before the lost prefix, the nodes are those that exist for all ranges
  have hkeys : ∀ e, NodeFor L₁ e ↔ (addAll (L₁.map earlyItem)).root.Key e := by
    intro e
    rw [hholds.keys]
    have hkey : ∀ y : RawPrefix fam, (earlyItem y).key = (topBits y.1 y.2, y.2) := by
      intro y
      exact congrArg (fun r : RawPrefix fam => (topBits r.1 r.2, r.2)) (earlyItem_raw y)
    constructor
    · rintro ⟨y, hy, hne, he⟩
      exact ⟨earlyItem y, List.mem_map_of_mem hy, (earlyItem_adds y).mpr hne, (hkey y).trans he⟩
    · rintro ⟨i, hi, hadds, he⟩
      obtain ⟨y, hy, rfl⟩ := List.mem_map.mp hi
      exact ⟨y, hy, (earlyItem_adds y).mp hadds, (hkey y).symm.trans he⟩
  have hmask : topBits (topBits x.1 x.2) x.2 = topBits x.1 x.2 := topBits_topBits_of_le le_rfl _
  have hbad : ¬(addAll (L₁.map earlyItem)).root.AddOk (topBits x.1 x.2) x.2 := by
    rw [addOk_iff hholds.wf hmask, not_not]
    exact (Lost.congr (hkeys _) fun e _ => hkeys e).mp hlost
  obtain ⟨q, hin, hfalse⟩ := exists_hidden
    (setRange · (max 1 (lostItem x).lenMin) (lostItem x).lenMax)
    (quiet_noBit hearly (Nat.le_max_left _ _) {} trivial) hmask hbad
  -- the item matches by its own range, and the trie does not find it
  refine ⟨hq.le, q, ⟨hin.symm, le_rfl, le_rfl⟩, ?_⟩
  have hroot : ((addAll (L₁.map earlyItem)).addItem (lostItem x)).root =
      trieAddWalk fam (setRange · (max 1 (lostItem x).lenMin) (lostItem x).lenMax)
        (topBits x.1 x.2) x.2 (addAll (L₁.map earlyItem)).root := by
    refine ((addItem_root _ ⟨Nat.le_max_right _ _, le_rfl, hq.le⟩).resolve_left ?_).2
    rintro ⟨hno, -⟩
    apply hno
    intro h
    have : max 1 x.2 = 0 := h.1
    omega
  unfold TrieRoot.match addAll
  rw [if_neg (by omega), List.foldl_append, List.foldl_cons]
  apply quiet_match_false hlate (Nat.le_max_left _ _)
  · show ((addAll (L₁.map earlyItem)).addItem (lostItem x)).root.NoBit true (max 1 x.2 - 1)
    rw [hroot]
    apply Trie.NoBit.addWalk (Or.inl rfl)
    exact quiet_noBit hearly (Nat.le_max_left _ _) {} trivial
  · show trieMatchWalk q (max 1 x.2) false
      ((addAll (L₁.map earlyItem)).addItem (lostItem x)).root = false
    rw [hroot]
    exact hfalse

/-! ## Sets with addresses of both families -/

/-- `struct prefixset_item` -/
structure PrefixsetItem where
  addr : InetAddr
  len : ℕ
  lenMin : ℕ
  lenMax : ℕ
  deriving DecidableEq, Repr

/-- `prefixset_cmp` -/
def prefixsetCmp (a b : PrefixsetItem) : ℤ :=
  if a.addr.aid < b.addr.aid then -1
  else if a.addr.aid > b.addr.aid then 1
  else if a.addr.val > b.addr.val then 1
  else if a.addr.val < b.addr.val then -1
  else if a.len < b.len then -1
  else if a.len > b.len then 1
  else if a.lenMin < b.lenMin then -1
  else if a.lenMin > b.lenMin then 1
  else if a.lenMax < b.lenMax then -1
  else if a.lenMax > b.lenMax then 1
  else 0

namespace PrefixsetItem

/-- What `merge_prefixspec` checks. -/
def Ok (i : PrefixsetItem) : Prop :=
  i.len ≤ i.lenMin ∧ i.lenMin ≤ i.lenMax ∧ i.lenMax ≤ i.addr.bits

/-- The item says that the prefix is in the set. -/
def Covers (i : PrefixsetItem) (q : InetAddr) (qlen : ℕ) : Prop :=
  (match i.addr, q with
    | .v4 a, .v4 b => topBits a i.len = topBits b i.len
    | .v6 a, .v6 b => topBits a i.len = topBits b i.len
    | _, _ => False) ∧ i.lenMin ≤ qlen ∧ qlen ≤ i.lenMax

/-- The prefix as it is written. -/
def raw (i : PrefixsetItem) : InetAddr × ℕ := (i.addr, i.len)

end PrefixsetItem

/-- A trie that is filled with `trie_add`. -/
def trieAddAll (items : List PrefixsetItem) : TrieHead :=
  items.foldl (fun th i => (trieAdd th i.addr i.len i.lenMin i.lenMax).2) {}

/-- `trie_match` answers as the items say, for every prefix. -/
def MeansItems (items : List PrefixsetItem) : Prop :=
  ∀ q : InetAddr, ∀ qlen ≤ q.bits,
    trieMatch (trieAddAll items) q qlen false = true ↔ ∃ i ∈ items, i.Covers q qlen

/-- The half of a trie head for one family, and the addresses of this family. -/
structure Half (fam : Family) where
  inj : BitVec fam.bits → InetAddr
  proj : InetAddr → Option (BitVec fam.bits)
  root : TrieHead → TrieRoot fam
  proj_eq_some : ∀ x a, proj x = some a ↔ x = inj a
  bits_inj : ∀ a, (inj a).bits = fam.bits
  root_empty : root {} = {}
  root_add : ∀ th x plen min max, root (trieAdd th x plen min max).2 =
    (proj x).elim (root th) fun a => ((root th).add a plen min max).2
  match_inj : ∀ th a plen orlonger, trieMatch th (inj a) plen orlonger =
    (root th).match a plen orlonger
  covers_inj : ∀ (i : PrefixsetItem) a b qlen, i.addr = inj a →
    (i.Covers (inj b) qlen ↔ (⟨a, i.len, i.lenMin, i.lenMax⟩ : Item fam).Covers b qlen)
  covers_none : ∀ (i : PrefixsetItem) b qlen, proj i.addr = none → ¬i.Covers (inj b) qlen

def half4 : Half inet where
  inj := .v4
  proj := fun | .v4 a => some a | .v6 _ => none
  root := TrieHead.v4
  proj_eq_some := by rintro (a | a) b <;> simp
  bits_inj := fun _ => rfl
  root_empty := rfl
  root_add := by rintro th (a | a) plen min max <;> rfl
  match_inj := fun _ _ _ _ => rfl
  covers_inj := by rintro ⟨_, len, lenMin, lenMax⟩ a b qlen rfl; rfl
  covers_none := by rintro ⟨a | a, len, lenMin, lenMax⟩ b qlen h <;> simp_all [PrefixsetItem.Covers]

def half6 : Half inet6 where
  inj := .v6
  proj := fun | .v4 _ => none | .v6 a => some a
  root := TrieHead.v6
  proj_eq_some := by rintro (a | a) b <;> simp
  bits_inj := fun _ => rfl
  root_empty := rfl
  root_add := by rintro th (a | a) plen min max <;> rfl
  match_inj := fun _ _ _ _ => rfl
  covers_inj := by rintro ⟨_, len, lenMin, lenMax⟩ a b qlen rfl; rfl
  covers_none := by rintro ⟨a | a, len, lenMin, lenMax⟩ b qlen h <;> simp_all [PrefixsetItem.Covers]

namespace Half

variable (half : Half fam)

/-- The items with an address of the family. -/
def items (items : List PrefixsetItem) : List (Item fam) :=
  items.filterMap fun i => (half.proj i.addr).map fun a => ⟨a, i.len, i.lenMin, i.lenMax⟩

/-- The prefixes with an address of the family. -/
def raws (L : List (InetAddr × ℕ)) : List (RawPrefix fam) :=
  L.filterMap fun x => (half.proj x.1).map fun a => (a, x.2)

theorem items_raw (l : List PrefixsetItem) : (half.items l).map Item.raw = half.raws
    (l.map PrefixsetItem.raw) := by
  unfold items raws
  rw [List.map_filterMap, List.filterMap_map]
  apply List.filterMap_congr
  intro i _
  rw [Option.map_map]
  rfl

/-- Items of the other family leave the half alone. -/
theorem root_addAll (l : List PrefixsetItem) :
    half.root (trieAddAll l) = addAll (half.items l) := by
  have main : ∀ th, half.root
      (l.foldl (fun th i => (trieAdd th i.addr i.len i.lenMin i.lenMax).2) th) =
      (half.items l).foldl TrieRoot.addItem (half.root th) := by
    induction l with
    | nil => exact fun th => rfl
    | cons i l ih =>
      intro th
      rw [List.foldl_cons, ih, half.root_add]
      unfold items
      rw [List.filterMap_cons]
      cases half.proj i.addr <;> rfl
  rw [trieAddAll, main, half.root_empty]
  rfl

theorem exists_covers_iff (l : List PrefixsetItem) (b : BitVec fam.bits) (qlen : ℕ) :
    (∃ i ∈ half.items l, i.Covers b qlen) ↔ ∃ i ∈ l, i.Covers (half.inj b) qlen := by
  unfold items
  simp only [List.mem_filterMap, Option.map_eq_some_iff]
  constructor
  · rintro ⟨_, ⟨i, hi, a, ha, rfl⟩, hcov⟩
    exact ⟨i, hi, (half.covers_inj i a b qlen ((half.proj_eq_some _ _).mp ha)).mpr hcov⟩
  · rintro ⟨i, hi, hcov⟩
    cases ha : half.proj i.addr with
    | none => exact absurd hcov (half.covers_none i b qlen ha)
    | some a =>
      exact ⟨_, ⟨i, hi, a, ha, rfl⟩,
        (half.covers_inj i a b qlen ((half.proj_eq_some _ _).mp ha)).mp hcov⟩

theorem items_ok {l : List PrefixsetItem} (h : ∀ i ∈ l, i.Ok) : ∀ i ∈ half.items l, i.Ok := by
  intro j hj
  obtain ⟨i, hi, hmap⟩ := List.mem_filterMap.mp hj
  obtain ⟨a, ha, rfl⟩ := Option.map_eq_some_iff.mp hmap
  have := h i hi
  rw [PrefixsetItem.Ok, (half.proj_eq_some _ _).mp ha, half.bits_inj] at this
  exact this

/-- What the half answers if it holds all items of its family. -/
theorem match_of_holds {l : List PrefixsetItem} (hok : ∀ i ∈ l, i.Ok)
    (h : Holds (half.items l) (addAll (half.items l))) (b : BitVec fam.bits) (qlen : ℕ) :
    trieMatch (trieAddAll l) (half.inj b) qlen false = true ↔
      ∃ i ∈ l, i.Covers (half.inj b) qlen := by
  rw [half.match_inj, half.root_addAll, ← half.exists_covers_iff]
  exact h.match_iff (half.items_ok hok) b qlen

/-- What the half answers if no prefix of its family gets lost. -/
theorem match_iff {l : List PrefixsetItem} (hok : ∀ i ∈ l, i.Ok)
    (hnever : NeverLost (half.raws (l.map PrefixsetItem.raw))) (b : BitVec fam.bits) (qlen : ℕ) :
    trieMatch (trieAddAll l) (half.inj b) qlen false = true ↔
      ∃ i ∈ l, i.Covers (half.inj b) qlen :=
  half.match_of_holds hok (addAll_holds _ (half.items_ok hok) (by rwa [half.items_raw])) b qlen

/-- Ranges for the prefixes before the lost one, for it, and behind it. -/
def early (x : InetAddr × ℕ) : PrefixsetItem :=
  if x.2 = 0 then ⟨x.1, 0, 0, 0⟩ else ⟨x.1, x.2, x.1.bits, x.1.bits⟩

theorem early_raw (x : InetAddr × ℕ) : (early x).raw = x := by
  unfold early PrefixsetItem.raw
  split
  · next h => rw [← h]
  · rfl

theorem early_ok {x : InetAddr × ℕ} (h : x.2 ≤ x.1.bits) : (early x).Ok := by
  unfold early
  split
  · exact ⟨le_rfl, le_rfl, Nat.zero_le _⟩
  · exact ⟨h, le_rfl, le_rfl⟩

def lost (x : InetAddr × ℕ) : PrefixsetItem := ⟨x.1, x.2, max 1 x.2, max 1 x.2⟩

def late (x : InetAddr × ℕ) : PrefixsetItem := ⟨x.1, x.2, x.1.bits, x.1.bits⟩

theorem items_append (l₁ l₂ : List PrefixsetItem) :
    half.items (l₁ ++ l₂) = half.items l₁ ++ half.items l₂ := List.filterMap_append ..

theorem items_early (L : List (InetAddr × ℕ)) :
    half.items (L.map early) = (half.raws L).map earlyItem := by
  unfold items raws
  rw [List.map_filterMap, List.filterMap_map]
  apply List.filterMap_congr
  rintro ⟨x, n⟩ _
  unfold early earlyItem
  by_cases hn : n = 0
  · cases h : half.proj x <;> simp [hn, h]
  · cases h : half.proj x with
    | none => simp [hn, h]
    | some a =>
      obtain rfl := (half.proj_eq_some _ _).mp h
      simp [hn, h, half.bits_inj]

theorem items_late (L : List (InetAddr × ℕ)) :
    half.items (L.map late) = (half.raws L).map lateItem := by
  unfold items raws
  rw [List.map_filterMap, List.filterMap_map]
  apply List.filterMap_congr
  rintro ⟨x, n⟩ _
  unfold late lateItem
  cases h : half.proj x with
  | none => simp [h]
  | some a =>
    obtain rfl := (half.proj_eq_some _ _).mp h
    simp [h, half.bits_inj]

end Half

/-- The order of prefixes in `prefixset_cmp`, before the ranges are compared. -/
def rawLt (x y : InetAddr × ℕ) : Prop :=
  x.1.aid < y.1.aid ∨ x.1.aid = y.1.aid ∧ (x.1.val < y.1.val ∨ x.1.val = y.1.val ∧ x.2 < y.2)

theorem rawLt_asymm {x y : InetAddr × ℕ} (h : rawLt x y) : ¬rawLt y x := by
  unfold rawLt at *
  omega

/-- Items with different prefixes are ordered by these. -/
theorem prefixsetCmp_neg {a b : PrefixsetItem} (h : rawLt a.raw b.raw) : prefixsetCmp a b < 0 := by
  unfold prefixsetCmp
  rcases h with haid | ⟨haid, hval | ⟨hval, hlen⟩⟩
  · have haid : a.addr.aid < b.addr.aid := haid
    simp [haid]
  · have haid : a.addr.aid = b.addr.aid := haid
    have hval : a.addr.val < b.addr.val := hval
    simp [haid, hval, hval.not_gt]
  · have haid : a.addr.aid = b.addr.aid := haid
    have hval : a.addr.val = b.addr.val := hval
    have hlen : a.len < b.len := hlen
    simp [haid, hval, hlen]

theorem raw_of_prefixsetCmp_neg {a b : PrefixsetItem} (h : prefixsetCmp a b < 0) :
    rawLt a.raw b.raw ∨ a.raw = b.raw := by
  unfold prefixsetCmp at h
  rcases (cmpField_le_zero ..).mp h.le with haid | ⟨haid, h⟩
  · exact Or.inl (Or.inl haid)
  rcases (cmpField_le_zero' ..).mp h with hval | ⟨hval, h⟩
  · exact Or.inl (Or.inr ⟨haid, Or.inl hval⟩)
  rcases (cmpField_le_zero ..).mp h with hlen | ⟨hlen, -⟩
  · exact Or.inl (Or.inr ⟨haid, Or.inr ⟨hval, hlen⟩⟩)
  · exact Or.inr (Prod.ext (InetAddr.ext_val haid hval) hlen)

/-- Items with one prefix and several ranges are added in a row. Only the first of them can
    get lost. -/
theorem neverLost_of_mem_iff {r : RawPrefix fam → RawPrefix fam → Prop} {L M : List (RawPrefix fam)}
    (hasymm : ∀ x y, r x y → ¬r y x) (hL : L.Pairwise r) (hM : M.Pairwise fun x y => r x y ∨ x = y)
    (hmem : ∀ x, x ∈ M ↔ x ∈ L) (h : NeverLost L) : NeverLost M := by
  have hirrefl : ∀ x, ¬r x x := fun x hx => hasymm x x hx hx
  rintro M₁ x M₂ rfl hlost
  obtain ⟨L₁, L₂, rfl⟩ := List.append_of_mem ((hmem x).mp (by simp))
  apply h L₁ x L₂ rfl
  rw [List.pairwise_append, List.pairwise_cons] at hL hM
  have hnode : ∀ e, NodeFor M₁ e ↔ NodeFor L₁ e := by
    intro e
    constructor
    · rintro ⟨y, hy, hne, he⟩
      refine ⟨y, ?_, hne, he⟩
      have hyL : y ∈ L₁ ++ x :: L₂ := (hmem y).mp (List.mem_append_left _ hy)
      rcases List.mem_append.mp hyL with hyL | hyL
      · exact hyL
      exfalso
      -- a prefix that is there already does not get lost
      have hyx : y ≠ x := by
        rintro rfl
        exact hlost.fresh ⟨y, hy, hne, rfl⟩
      have hlt : r y x := (hM.2.2 y hy x (by simp)).resolve_right hyx
      exact hasymm _ _ hlt (hL.2.1.1 y ((List.mem_cons.mp hyL).resolve_left hyx))
    · rintro ⟨y, hy, hne, he⟩
      refine ⟨y, ?_, hne, he⟩
      have hlt : r y x := hL.2.2 y hy x (by simp)
      have hyM : y ∈ M₁ ++ x :: M₂ := (hmem y).mpr (List.mem_append_left _ hy)
      rcases List.mem_append.mp hyM with hyM | hyM
      · exact hyM
      exfalso
      rcases List.mem_cons.mp hyM with rfl | hyM
      · exact hirrefl _ hlt
      · rcases hM.2.1.1 y hyM with hgt | rfl
        · exact hasymm _ _ hlt hgt
        · exact hirrefl _ hlt
  exact (Lost.congr (hnode _) fun e _ => hnode e).mp hlost

namespace Half

variable (half : Half fam)

theorem mem_raws_iff {L : List (InetAddr × ℕ)} {x : RawPrefix fam} :
    x ∈ half.raws L ↔ (half.inj x.1, x.2) ∈ L := by
  unfold raws
  simp only [List.mem_filterMap, Option.map_eq_some_iff, half.proj_eq_some]
  constructor
  · rintro ⟨⟨y, n⟩, hy, a, rfl, rfl⟩
    exact hy
  · intro hx
    exact ⟨_, hx, x.1, rfl, rfl⟩

theorem pairwise_raws {r : InetAddr × ℕ → InetAddr × ℕ → Prop} {L : List (InetAddr × ℕ)}
    (h : L.Pairwise r) :
    (half.raws L).Pairwise fun x y => r (half.inj x.1, x.2) (half.inj y.1, y.2) := by
  unfold raws
  rw [List.pairwise_filterMap]
  apply h.imp
  rintro ⟨x, n⟩ ⟨y, m⟩ hr a ha b hb
  obtain ⟨a, hpa, rfl⟩ := Option.map_eq_some_iff.mp ha
  obtain ⟨b, hpb, rfl⟩ := Option.map_eq_some_iff.mp hb
  obtain rfl := (half.proj_eq_some _ _).mp hpa
  obtain rfl := (half.proj_eq_some _ _).mp hpb
  exact hr

theorem inj_injective {a b : BitVec fam.bits} (h : half.inj a = half.inj b) : a = b := by
  have ha : half.proj (half.inj a) = some a := (half.proj_eq_some _ _).mpr rfl
  rw [h, (half.proj_eq_some _ _).mpr rfl] at ha
  exact (Option.some_inj.mp ha).symm

/-- The loss of a prefix of the family does not depend on the number of items for it. -/
theorem neverLost_raws {L : List (InetAddr × ℕ)} {items : List PrefixsetItem}
    (hL : L.Pairwise rawLt) (hsorted : items.Pairwise fun a b => prefixsetCmp a b < 0)
    (hmem : ∀ x, x ∈ items.map PrefixsetItem.raw ↔ x ∈ L) (h : NeverLost (half.raws L)) :
    NeverLost (half.raws (items.map PrefixsetItem.raw)) := by
  have hraw : (items.map PrefixsetItem.raw).Pairwise fun x y => rawLt x y ∨ x = y :=
    List.pairwise_map.mpr (hsorted.imp raw_of_prefixsetCmp_neg)
  apply neverLost_of_mem_iff (fun _ _ hlt => rawLt_asymm hlt) (half.pairwise_raws hL) _ _ h
  · apply (half.pairwise_raws hraw).imp
    rintro ⟨a, n⟩ ⟨b, m⟩ (hlt | heq)
    · exact Or.inl hlt
    · obtain ⟨h₁, h₂⟩ := Prod.mk.inj heq
      exact Or.inr (Prod.ext (half.inj_injective h₁) h₂)
  · intro x
    rw [half.mem_raws_iff, half.mem_raws_iff, hmem]

/-- The loss of a prefix shows in a set of items. -/
theorem exists_not_means {L : List (InetAddr × ℕ)} (hlen : ∀ x ∈ L, x.2 ≤ x.1.bits)
    (h : ¬NeverLost (half.raws L)) :
    ∃ items : List PrefixsetItem, items.map PrefixsetItem.raw = L ∧ (∀ i ∈ items, i.Ok) ∧
      ¬MeansItems items := by
  obtain ⟨L₁, x, L₂, hL, hnever, hlost⟩ := exists_first_lost h
  -- the list behind the prefixes of the family
  obtain ⟨M₁, N, rfl, rfl, hN⟩ := List.filterMap_eq_append_iff.mp hL
  obtain ⟨N₁, ⟨y, n⟩, N₂, rfl, hN₁, hy, rfl⟩ := List.filterMap_eq_cons_iff.mp hN
  obtain ⟨a, ha, rfl⟩ := Option.map_eq_some_iff.mp hy
  obtain rfl := (half.proj_eq_some _ _).mp ha
  have hnone : half.raws N₁ = [] := List.filterMap_eq_nil_iff.mpr hN₁
  have hbits : ∀ x ∈ half.raws (M₁ ++ (N₁ ++ (half.inj a, n) :: N₂)), x.2 ≤ fam.bits := by
    intro x hx
    have := hlen _ (half.mem_raws_iff.mp hx)
    rwa [half.bits_inj] at this
  have hraws : half.raws (M₁ ++ (N₁ ++ (half.inj a, n) :: N₂)) =
      half.raws M₁ ++ (a, n) :: half.raws N₂ := by
    rw [hL]
    rfl
  obtain ⟨hmax, q, hcov, hfalse⟩ := exists_unmatched (hraws ▸ hbits) hnever hlost
  refine ⟨M₁.map early ++ (N₁.map early ++ lost (half.inj a, n) :: N₂.map late), ?_, ?_, ?_⟩
  · have hearly : ∀ L : List (InetAddr × ℕ), (L.map early).map PrefixsetItem.raw = L := by
      intro L
      rw [List.map_map]
      exact (List.map_congr_left fun y _ => early_raw y).trans (List.map_id _)
    have hlate : (N₂.map late).map PrefixsetItem.raw = N₂ := by
      rw [List.map_map]
      exact List.map_id _
    simp only [List.map_append, List.map_cons, hearly, hlate]
    rfl
  · intro i hi
    simp only [List.mem_append, List.mem_cons, List.mem_map] at hi
    rcases hi with ⟨y, hy, rfl⟩ | ⟨y, hy, rfl⟩ | rfl | ⟨y, hy, rfl⟩
    · exact early_ok (hlen y (by simp [hy]))
    · exact early_ok (hlen y (by simp [hy]))
    · refine ⟨Nat.le_max_right _ _, le_rfl, ?_⟩
      show max 1 n ≤ (half.inj a).bits
      rw [half.bits_inj]
      exact hmax
    · exact ⟨hlen y (by simp [hy]), le_rfl, le_rfl⟩
  · intro hmeans
    have hitems : half.items
        (M₁.map early ++ (N₁.map early ++ lost (half.inj a, n) :: N₂.map late)) =
        (half.raws M₁).map earlyItem ++ lostItem (a, n) :: (half.raws N₂).map lateItem := by
      rw [half.items_append, half.items_append, half.items_early, half.items_early, hnone,
        ← half.items_late]
      unfold items lost
      rw [List.filterMap_cons, ha]
      rfl
    have hq : max 1 n ≤ (half.inj q).bits := by rwa [half.bits_inj]
    have hiff := hmeans (half.inj q) (max 1 n) hq
    rw [half.match_inj, half.root_addAll, ← half.exists_covers_iff, hitems] at hiff
    exact Bool.false_ne_true (hfalse.symm.trans (hiff.mpr ⟨lostItem (a, n), by simp, hcov⟩))

end Half

/-- A prefix set means what it says if none of its items gets lost that gets a node. -/
theorem meansItems_of_kept {items : List PrefixsetItem} (hok : ∀ i ∈ items, i.Ok)
    (h4 : ItemsKept (half4.items items)) (h6 : ItemsKept (half6.items items)) :
    MeansItems items := by
  have hholds4 := addAll_holds_of_kept _ (half4.items_ok hok) h4
  have hholds6 := addAll_holds_of_kept _ (half6.items_ok hok) h6
  rintro (q | q) qlen -
  · exact half4.match_of_holds hok hholds4 q qlen
  · exact half6.match_of_holds hok hholds6 q qlen

/-- Given prefixes mean what they say, whatever the ranges of the items are, if and only if no
    prefix of one of the families gets lost behind those that are added before it. -/
theorem meansItems_all_ranges {L : List (InetAddr × ℕ)} (hlen : ∀ x ∈ L, x.2 ≤ x.1.bits)
    (hL : L.Pairwise rawLt) :
    (∀ items : List PrefixsetItem, (∀ x, x ∈ items.map PrefixsetItem.raw ↔ x ∈ L) →
        (∀ i ∈ items, i.Ok) → items.Pairwise (fun a b => prefixsetCmp a b < 0) →
        MeansItems items) ↔
      NeverLost (half4.raws L) ∧ NeverLost (half6.raws L) := by
  constructor
  · intro h
    have hall : ∀ {fam} (half : Half fam), NeverLost (half.raws L) := by
      intro fam half
      by_contra hno
      obtain ⟨items, hraw, hok, hbad⟩ := half.exists_not_means hlen hno
      apply hbad
      apply h items (fun x => by rw [hraw]) hok
      rw [← hraw, List.pairwise_map] at hL
      exact hL.imp prefixsetCmp_neg
    exact ⟨hall half4, hall half6⟩
  · rintro ⟨h4, h6⟩ items hmem hok hsorted (q | q) qlen -
    · exact half4.match_iff hok (half4.neverLost_raws hL hsorted hmem h4) q qlen
    · exact half6.match_iff hok (half6.neverLost_raws hL hsorted hmem h6) q qlen

/-- A prefix set means what it says if no item with a node gets lost. If the ranges are left open,
    that no prefix gets lost is needed as well. -/
theorem prefixset_match_iff (items : List PrefixsetItem) (L : List (InetAddr × ℕ))
    (hok : ∀ i ∈ items, i.Ok) (hlen : ∀ x ∈ L, x.2 ≤ x.1.bits) (hL : L.Pairwise rawLt) :
    (ItemsKept (half4.items items) → ItemsKept (half6.items items) → MeansItems items) ∧
      ((∀ items : List PrefixsetItem, (∀ x, x ∈ items.map PrefixsetItem.raw ↔ x ∈ L) →
          (∀ i ∈ items, i.Ok) → items.Pairwise (fun a b => prefixsetCmp a b < 0) →
          MeansItems items) ↔
        NeverLost (half4.raws L) ∧ NeverLost (half6.raws L)) :=
  ⟨meansItems_of_kept hok, meansItems_all_ranges hlen hL⟩

/-- The items 1.0.0.0/8 and 10.0.0.0/0, of which the second is only a flag, and 2001::/16
    prefixlen 16 - 48; and the prefixes 0.0.0.0/0 and 10.0.0.0/8 with any ranges. -/
theorem prefixset_match_iff_sample :
    MeansItems [⟨.v4 0x01000000#32, 8, 8, 8⟩, ⟨.v4 0x0a000000#32, 0, 0, 0⟩,
        ⟨.v6 (0x2001#128 <<< 112), 16, 16, 48⟩] ∧
      ∀ items : List PrefixsetItem,
        (∀ x, x ∈ items.map PrefixsetItem.raw ↔ x ∈ [(.v4 0x0#32, 0), (.v4 0x0a000000#32, 8)]) →
        (∀ i ∈ items, i.Ok) → items.Pairwise (fun a b => prefixsetCmp a b < 0) →
        MeansItems items := by
  have hok : ∀ i ∈ [(⟨.v4 0x01000000#32, 8, 8, 8⟩ : PrefixsetItem),
      ⟨.v4 0x0a000000#32, 0, 0, 0⟩, ⟨.v6 (0x2001#128 <<< 112), 16, 16, 48⟩], i.Ok := by
    simp [PrefixsetItem.Ok, InetAddr.bits, inet, inet6]
  have hL : ([(.v4 0x0#32, 0), (.v4 0x0a000000#32, 8)] : List (InetAddr × ℕ)).Pairwise
      rawLt := by
    simp [rawLt, InetAddr.aid, InetAddr.val]
  obtain ⟨hkept, hranges⟩ := prefixset_match_iff _ _ hok (by decide) hL
  refine ⟨hkept ?_ ?_, hranges.mpr ⟨?_, ?_⟩⟩
  · -- only the first item gets a node
    show ItemsKept [(⟨0x01000000#32, 8, 8, 8⟩ : Item inet), ⟨0x0a000000#32, 0, 0, 0⟩]
    rintro l i l' heq hadds hlost
    obtain ⟨e, ⟨j, hj, -⟩, -⟩ := hlost.inside
    obtain ⟨k, l, rfl⟩ := List.exists_cons_of_ne_nil (List.ne_nil_of_mem hj)
    obtain ⟨-, htail⟩ := List.cons.inj heq
    have hi : i ∈ [(⟨0x0a000000#32, 0, 0, 0⟩ : Item inet)] := by rw [htail]; simp
    obtain rfl := List.mem_singleton.mp hi
    exact hadds ⟨rfl, rfl⟩
  · show ItemsKept [(⟨0x2001#128 <<< 112, 16, 16, 48⟩ : Item inet6)]
    rintro l i l' heq - hlost
    obtain ⟨e, ⟨j, hj, -⟩, -⟩ := hlost.inside
    obtain ⟨k, l, rfl⟩ := List.exists_cons_of_ne_nil (List.ne_nil_of_mem hj)
    exact absurd (List.cons.inj heq).2 (by simp)
  · apply neverLost_of_masked
    · decide
    · decide
  · apply neverLost_of_masked
    · decide
    · decide

/-- 10.1.0.0/16 prefixlen 16 and 10.2.0.0/8 prefixlen 8 - 32: 10.5.0.0/16 is below the second
    item, but not below the branch node at bit 15 that this item is put under. -/
theorem prefixset_match_hidden :
    ∃ items : List PrefixsetItem, (∀ i ∈ items, i.Ok) ∧
      items.Pairwise (fun a b => prefixsetCmp a b < 0) ∧ ¬MeansItems items := by
  refine ⟨[⟨.v4 0x0a010000#32, 16, 16, 16⟩, ⟨.v4 0x0a020000#32, 8, 8, 32⟩], ?_, ?_, ?_⟩
  · simp [PrefixsetItem.Ok, InetAddr.bits, inet]
  · decide
  · intro h
    have hiff := h (.v4 0x0a050000#32) 16 (by decide)
    have hno : trieMatch (trieAddAll [⟨.v4 0x0a010000#32, 16, 16, 16⟩,
        ⟨.v4 0x0a020000#32, 8, 8, 32⟩]) (.v4 0x0a050000#32) 16 false = false := by
      decide +kernel
    rw [hno] at hiff
    refine Bool.false_ne_true (hiff.mpr ⟨⟨.v4 0x0a020000#32, 8, 8, 32⟩, by simp, ?_, ?_, ?_⟩)
    · show topBits (0x0a020000#32) 8 = topBits (0x0a050000#32) 8
      decide
    · decide
    · decide

end Bgpd.Rpki
