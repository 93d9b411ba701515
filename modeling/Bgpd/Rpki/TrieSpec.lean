import Bgpd.Rpki.Trie

/-!
# What a Trie Holds

A well-formed trie is a finite map from prefixes to data: `Trie.get`. The walk of a lookup
visits exactly the nodes whose prefix covers the address it looks for. Adding a prefix changes
the map at this prefix only, unless the walk meets a node inside the new prefix whose address
is not the one of the new prefix: there the code takes the node for one that is off the path
and puts the new node below a branch that is more specific than the new node.

## Main results

- `mem_covers_iff`: what a lookup visits
- `Wf.addWalk`, `get_addWalk`: adding a prefix
- `addOk_iff`: when the walk misplaces the new node, in terms of the prefixes in the trie
-/

namespace Bgpd.Rpki

open Bgpd.Lib

variable {w : ℕ} {δ : Type}

/-! ## The map of a trie -/

/-- The data of the real node for a prefix. -/
def Trie.get (t : Trie w δ) (p : BitVec w) (plen : ℕ) : Option δ :=
  match t with
  | .nil => none
  | .node addr nplen real data trie0 trie1 =>
    if plen < nplen then none
    else if plen = nplen then (if addr = p ∧ real then some data else none)
    else if p.getMsbD nplen then trie1.get p plen
    else trie0.get p plen

/-- The root of a child is longer than its parent `addr/plen`, inside it, and on the side that
    its bit says. -/
def Trie.ChildOf (addr : BitVec w) (plen : ℕ) (side : Bool) : Trie w δ → Prop
  | .nil => True
  | .node addr' plen' _ _ _ _ => plen < plen' ∧ topBits addr' plen = addr ∧
    addr'.getMsbD plen = side

/-- Addresses are masked, lengths grow along each branch, and a branch node branches. -/
def Trie.Wf [Inhabited δ] : Trie w δ → Prop
  | .nil => True
  | .node addr plen real data trie0 trie1 =>
    plen ≤ w ∧ topBits addr plen = addr ∧
      (real = false → data = default ∧ trie0 ≠ .nil ∧ trie1 ≠ .nil) ∧
      trie0.ChildOf addr plen false ∧ trie1.ChildOf addr plen true ∧ trie0.Wf ∧ trie1.Wf

variable [Inhabited δ] {t trie0 trie1 : Trie w δ} {addr p q : BitVec w} {plen nplen qlen : ℕ}
  {real : Bool} {data d : δ}

omit [Inhabited δ] in
theorem get_node_lt (h : plen < nplen) :
    (Trie.node addr nplen real data trie0 trie1).get p plen = none := by
  rw [Trie.get, if_pos h]

omit [Inhabited δ] in
theorem get_node_eq :
    (Trie.node addr nplen real data trie0 trie1).get p nplen =
      if addr = p ∧ real then some data else none := by
  rw [Trie.get, if_neg (lt_irrefl _), if_pos rfl]

omit [Inhabited δ] in
theorem get_node_gt (h : nplen < plen) :
    (Trie.node addr nplen real data trie0 trie1).get p plen =
      (if p.getMsbD nplen then trie1 else trie0).get p plen := by
  rw [Trie.get, if_neg (by omega), if_neg (by omega)]
  split <;> rfl

theorem Trie.Wf.child (hw : (Trie.node addr nplen real data trie0 trie1).Wf) (side : Bool) :
    (if side then trie1 else trie0).ChildOf addr nplen side ∧
      (if side then trie1 else trie0).Wf := by
  obtain ⟨-, -, -, hc0, hc1, hw0, hw1⟩ := hw
  cases side with
  | false => exact ⟨hc0, hw0⟩
  | true => exact ⟨hc1, hw1⟩

/-- The prefix is the one of the root or inside it. -/
def Trie.RootCovers (p : BitVec w) (plen : ℕ) : Trie w δ → Prop
  | .nil => False
  | .node addr nplen _ _ _ _ => nplen ≤ plen ∧ topBits p nplen = addr

omit [Inhabited δ] in
/-- What is inside the root of a child is inside its parent, on the same side. -/
theorem Trie.ChildOf.inside {side : Bool} (hc : t.ChildOf addr nplen side)
    (hr : t.RootCovers p plen) :
    nplen < plen ∧ topBits p nplen = addr ∧ p.getMsbD nplen = side := by
  cases t with
  | nil => exact hr.elim
  | node addr' plen' _ _ _ _ =>
    obtain ⟨hlt, htop, hbit⟩ := hc
    obtain ⟨hle, haddr⟩ := hr
    refine ⟨lt_of_lt_of_le hlt hle, ?_, ?_⟩
    · rw [← htop, ← haddr, topBits_topBits_of_le hlt.le]
    · rw [← hbit, ← haddr, getMsbD_topBits, decide_eq_true hlt, Bool.and_true]

/-- A prefix that is found is inside the root. -/
theorem Trie.Wf.rootCovers (hw : t.Wf) (hp : topBits p plen = p) (h : t.get p plen = some d) :
    t.RootCovers p plen := by
  induction t with
  | nil => simp [Trie.get] at h
  | node addr nplen real data trie0 trie1 ih0 ih1 =>
    obtain ⟨hc, hwc⟩ := hw.child (p.getMsbD nplen)
    obtain hlt | rfl | hgt := lt_trichotomy plen nplen
    · rw [get_node_lt hlt] at h
      exact absurd h (by simp)
    · rw [get_node_eq] at h
      split at h
      · next hreal => exact ⟨le_rfl, hp.trans hreal.1.symm⟩
      · exact absurd h (by simp)
    · rw [get_node_gt hgt] at h
      have hr : (if p.getMsbD nplen then trie1 else trie0).RootCovers p plen := by
        split at h
        · next hbit => rw [if_pos hbit] at hwc ⊢; exact ih1 hwc h
        · next hbit => rw [if_neg hbit] at hwc ⊢; exact ih0 hwc h
      exact ⟨hgt.le, (hc.inside hr).2.1⟩

/-- A prefix found below a node is longer than the node and inside it. -/
theorem Trie.ChildOf.get_inside {side : Bool} (hc : t.ChildOf addr nplen side) (hw : t.Wf)
    (hp : topBits p plen = p) (h : t.get p plen = some d) :
    nplen < plen ∧ topBits p nplen = addr ∧ p.getMsbD nplen = side :=
  hc.inside (hw.rootCovers hp h)

/-! ## Lookups -/

/-- The real nodes that the walk of a lookup visits, with their lengths. -/
def Trie.covers (q : BitVec w) (qlen : ℕ) : Trie w δ → List (ℕ × δ)
  | .nil => []
  | .node addr nplen real data trie0 trie1 =>
    if nplen > qlen then []
    else if addr ≠ topBits q nplen then []
    else (if real then [(nplen, data)] else []) ++
      (if nplen = w then []
      else if q.getMsbD nplen then trie1.covers q qlen
      else trie0.covers q qlen)

/-- On the path, the walk visits the node and goes on. Host routes have no children. -/
theorem covers_node (hw : (Trie.node addr nplen real data trie0 trie1).Wf) (hle : nplen ≤ qlen)
    (hon : addr = topBits q nplen) :
    (Trie.node addr nplen real data trie0 trie1).covers q qlen =
      (if real then [(nplen, data)] else []) ++
        (if q.getMsbD nplen then trie1 else trie0).covers q qlen := by
  rw [Trie.covers, if_neg (by omega), if_neg (not_not.mpr hon)]
  congr 1
  split
  · next hfull =>
    obtain ⟨hc, hwc⟩ := hw.child (q.getMsbD nplen)
    generalize (if q.getMsbD nplen then trie1 else trie0) = c at hc hwc
    cases c with
    | nil => rfl
    | node _ plen' _ _ _ _ =>
      have h₁ := hc.1
      have h₂ := hwc.1
      omega
  · split <;> rfl

/-- A lookup visits the prefixes that cover the address, and no others. -/
theorem mem_covers_iff (hw : t.Wf) {n : ℕ} :
    (n, d) ∈ t.covers q qlen ↔ n ≤ qlen ∧ t.get (topBits q n) n = some d := by
  have hmask : topBits (topBits q n) n = topBits q n := topBits_topBits_of_le le_rfl q
  induction t with
  | nil => simp [Trie.covers, Trie.get]
  | node addr nplen real data trie0 trie1 ih0 ih1 =>
    by_cases hpath : nplen ≤ qlen ∧ addr = topBits q nplen
    · obtain ⟨hle, hon⟩ := hpath
      rw [covers_node hw hle hon, List.mem_append]
      obtain ⟨hc, hwc⟩ := hw.child (q.getMsbD nplen)
      have ih : (n, d) ∈ (if q.getMsbD nplen then trie1 else trie0).covers q qlen ↔
          n ≤ qlen ∧ (if q.getMsbD nplen then trie1 else trie0).get (topBits q n) n = some d := by
        split
        · next hbit => rw [if_pos hbit] at hwc; exact ih1 hwc
        · next hbit => rw [if_neg hbit] at hwc; exact ih0 hwc
      -- below the node there are only longer prefixes
      have hlong : (n, d) ∈ (if q.getMsbD nplen then trie1 else trie0).covers q qlen → nplen < n :=
        fun h => (hc.get_inside hwc hmask (ih.mp h).2).1
      have hself : (n, d) ∈ (if real then [(nplen, data)] else []) ↔
          nplen = n ∧ real ∧ data = d := by
        cases real <;> simp [eq_comm]
      rw [hself]
      obtain hlt | rfl | hgt := lt_trichotomy n nplen
      · rw [get_node_lt hlt]
        refine iff_of_false ?_ (by simp)
        rintro (h | h)
        · omega
        · exact absurd (hlong h) (by omega)
      · rw [get_node_eq, or_iff_left (fun h => absurd (hlong h) (lt_irrefl _))]
        cases real <;> simp [hon, hle]
      · rw [get_node_gt hgt, or_iff_right (by omega), ih, getMsbD_topBits, decide_eq_true hgt,
          Bool.and_true]
    · -- nothing that covers the address is below a node that does not
      have hnil : (Trie.node addr nplen real data trie0 trie1).covers q qlen = [] := by
        rw [Trie.covers]
        split
        · rfl
        · rw [if_pos fun hon => hpath ⟨by omega, hon⟩]
      rw [hnil]
      refine iff_of_false (by simp) ?_
      rintro ⟨hn, hget⟩
      obtain ⟨hle, htop⟩ := hw.rootCovers hmask hget
      rw [topBits_topBits_of_le hle] at htop
      exact hpath ⟨by omega, htop.symm⟩

/-! ## Adding a prefix -/

/-- A node with the child `x` on one side and `y` on the other one. -/
def Trie.fork (addr : BitVec w) (plen : ℕ) (real : Bool) (data : δ) (side : Bool)
    (x y : Trie w δ) : Trie w δ :=
  if side then .node addr plen real data y x else .node addr plen real data x y

omit [Inhabited δ] in
theorem fork_eq (side : Bool) (x y : Trie w δ) :
    Trie.fork addr plen real data side x y =
      .node addr plen real data (if side then y else x) (if side then x else y) := by
  cases side <;> rfl

omit [Inhabited δ] in
theorem get_fork_gt {side : Bool} {x y : Trie w δ} (h : nplen < plen) :
    (Trie.fork addr nplen real data side x y).get p plen =
      if p.getMsbD nplen = side then x.get p plen else y.get p plen := by
  rw [fork_eq, get_node_gt h]
  cases side <;> cases p.getMsbD nplen <;> rfl

theorem Trie.Wf.fork {side : Bool} {x y : Trie w δ} (hle : plen ≤ w)
    (haddr : topBits addr plen = addr)
    (hreal : real = false → data = default ∧ x ≠ .nil ∧ y ≠ .nil)
    (hx : x.ChildOf addr plen side) (hy : y.ChildOf addr plen (!side)) (hwx : x.Wf) (hwy : y.Wf) :
    (Trie.fork addr plen real data side x y).Wf := by
  rw [fork_eq]
  cases side with
  | false => exact ⟨hle, haddr, hreal, hx, hy, hwx, hwy⟩
  | true =>
    exact ⟨hle, haddr, fun h => ⟨(hreal h).1, (hreal h).2.2, (hreal h).2.1⟩, hy, hx, hwy, hwx⟩

/-- The walk of an insertion does not take a node inside the new prefix `p/plen` for one that
    is off the path. -/
def Trie.AddOk (p : BitVec w) (plen : ℕ) : Trie w δ → Prop
  | .nil => True
  | .node addr nplen _ _ trie0 trie1 =>
    if plen < nplen then topBits addr plen = p → addr = p
    else if nplen < plen ∧ addr = topBits p nplen then
      (if p.getMsbD nplen then trie1.AddOk p plen else trie0.AddOk p plen)
    else True

section Add

variable {fam : Family} {upd : δ → δ} {t trie0 trie1 : Trie fam.bits δ}
  {addr p q : BitVec fam.bits}

/-- The node is off the path: both go below a new branch node. -/
theorem addWalk_off (h : addr ≠ topBits p (min nplen plen)) :
    trieAddWalk fam upd p plen (.node addr nplen real data trie0 trie1) =
      let k := fam.findmsb addr (topBits p (min nplen plen))
      .fork (topBits addr k) k false default (addr.getMsbD k)
        (.node addr nplen real data trie0 trie1) (.new upd p plen) := by
  have hmin : (if nplen > plen then plen else nplen) = min nplen plen := by
    rw [Nat.min_def]
    split <;> split <;> omega
  rw [trieAddWalk]
  simp only [hmin]
  rw [if_pos h]
  rfl

/-- The node is inside the new prefix, at the same address. -/
theorem addWalk_above (h : addr = topBits p plen) (hlt : plen < nplen) :
    trieAddWalk fam upd p plen (.node addr nplen real data trie0 trie1) =
      .fork p plen true (upd default) (addr.getMsbD plen)
        (.node addr nplen real data trie0 trie1) .nil := by
  rw [trieAddWalk]
  simp only [if_pos (show nplen > plen from hlt)]
  rw [if_neg (not_not.mpr h)]
  rfl

theorem addWalk_same (h : addr = topBits p nplen) :
    trieAddWalk fam upd p nplen (.node addr nplen real data trie0 trie1) =
      .node addr nplen true (upd data) trie0 trie1 := by
  rw [trieAddWalk]
  simp [h]

/-- The new prefix is inside the node. -/
theorem addWalk_below (h : addr = topBits p nplen) (hlt : nplen < plen) :
    trieAddWalk fam upd p plen (.node addr nplen real data trie0 trie1) =
      .fork addr nplen real data (p.getMsbD nplen)
        (trieAddWalk fam upd p plen (if p.getMsbD nplen then trie1 else trie0))
        (if p.getMsbD nplen then trie0 else trie1) := by
  rw [trieAddWalk]
  have hn : ¬nplen > plen := by omega
  simp only [if_neg hn]
  rw [if_neg (not_not.mpr h), if_neg (by omega), fork_eq]
  cases p.getMsbD nplen <;> rfl

/-- Off the path, the first different bit is before the end of either prefix. -/
theorem off_firstDiff
    (hoff : topBits addr (min nplen plen) ≠ topBits p (min nplen plen)) {k : ℕ}
    (hk : FirstDiff addr (topBits p (min nplen plen)) k) :
    k < nplen ∧ k < plen ∧ topBits p k = topBits addr k ∧ p.getMsbD k = !addr.getMsbD k := by
  have hlt : k < min nplen plen := by
    apply hk.lt_of_ne
    rwa [topBits_topBits_of_le le_rfl]
  have hbits : ∀ i ≤ k, (topBits p (min nplen plen)).getMsbD i = p.getMsbD i := by
    intro i hi
    rw [getMsbD_topBits, decide_eq_true (by omega), Bool.and_true]
  refine ⟨by omega, by omega, ?_, ?_⟩
  · rw [topBits_eq_iff]
    intro i hi
    rw [← hbits i hi.le, hk.before i hi]
  · have := hk.differ
    rw [hbits k le_rfl] at this
    cases h₁ : p.getMsbD k <;> cases h₂ : addr.getMsbD k <;> simp_all

/-- What `t'` is when the prefix `p/plen` has been added to `t`. -/
structure AddSpec (upd : δ → δ) (p : BitVec fam.bits) (plen : ℕ) (t t' : Trie fam.bits δ) :
    Prop where
  wf : t'.Wf
  ne_nil : t' ≠ .nil
  child : ∀ addr n side, t.ChildOf addr n side → n < plen → topBits p n = addr →
    p.getMsbD n = side → t'.ChildOf addr n side
  get : ∀ p' l, topBits p' l = p' → t'.get p' l =
    if p' = p ∧ l = plen then some (upd ((t.get p plen).getD default)) else t.get p' l

theorem new_wf (hp : topBits p plen = p) (hle : plen ≤ fam.bits) :
    (Trie.new upd p plen).Wf :=
  ⟨hle, hp, fun h => absurd h (by simp), trivial, trivial, trivial, trivial⟩

omit [Inhabited δ] in
theorem get_leaf (real : Bool) (data : δ) (p' : BitVec fam.bits) (l : ℕ) :
    (Trie.node p plen real data .nil .nil).get p' l =
      if p' = p ∧ l = plen ∧ real then some data else none := by
  obtain hlt | rfl | hgt := lt_trichotomy l plen
  · rw [get_node_lt hlt, if_neg (by omega)]
  · rw [get_node_eq]
    simp [eq_comm]
  · rw [get_node_gt hgt, if_neg (c := _ ∧ _) (by omega)]
    split <;> rfl

theorem AddSpec.leaf (hp : topBits p plen = p) (hle : plen ≤ fam.bits) :
    AddSpec upd p plen .nil (.new upd p plen) where
  wf := new_wf hp hle
  ne_nil := nofun
  child := fun _ _ _ _ h₁ h₂ h₃ => ⟨h₁, h₂, h₃⟩
  get := by
    intro p' l _
    rw [Trie.new, get_leaf]
    simp [Trie.get]

/-- A prefix off the node's path gets a fork above both. -/
theorem AddSpec.off (hw : (Trie.node addr nplen real data trie0 trie1).Wf)
    (hp : topBits p plen = p) (hle : plen ≤ fam.bits)
    (hoff : topBits addr (min nplen plen) ≠ topBits p (min nplen plen)) {k : ℕ}
    (hk : FirstDiff addr (topBits p (min nplen plen)) k) :
    AddSpec upd p plen (.node addr nplen real data trie0 trie1)
      (.fork (topBits addr k) k false default (addr.getMsbD k)
        (.node addr nplen real data trie0 trie1) (.new upd p plen)) := by
  obtain ⟨hkn, hkp, htop, hbit⟩ := off_firstDiff hoff hk
  constructor
  · exact Trie.Wf.fork hk.lt.le (topBits_topBits_of_le le_rfl _) (fun _ => ⟨rfl, nofun, nofun⟩)
      ⟨hkn, rfl, rfl⟩ ⟨hkp, htop, hbit⟩ hw (new_wf hp hle)
  · rw [fork_eq]
    exact nofun
  · -- the branch is where both part, so it is below what both are below
    intro a n side hc hn ha hs
    rw [fork_eq]
    have hnk : n < k := by
      by_contra hnk
      have : topBits p (n + 1) = topBits addr (n + 1) :=
        topBits_succ_iff.mpr ⟨ha.trans hc.2.1.symm, hs.trans hc.2.2.symm⟩
      have h := topBits_succ_iff.mp (topBits_mono (show k + 1 ≤ n + 1 by omega) this)
      rw [hbit] at h
      simpa using h.2
    refine ⟨hnk, ?_, ?_⟩
    · rw [topBits_topBits_of_le hnk.le]
      exact hc.2.1
    · rw [getMsbD_topBits, decide_eq_true hnk, Bool.and_true]
      exact hc.2.2
  · intro p' l hp'
    have hold : (Trie.node addr nplen real data trie0 trie1).get p plen = none := by
      by_contra hne
      obtain ⟨d, hd⟩ := Option.ne_none_iff_exists'.mp hne
      obtain ⟨h₁, h₂⟩ := hw.rootCovers hp hd
      apply hoff
      rw [Nat.min_eq_left h₁, ← h₂, topBits_topBits_of_le le_rfl]
    rw [hold, Option.getD_none]
    obtain hlt | rfl | hgt := lt_trichotomy l k
    · rw [fork_eq, get_node_lt hlt, get_node_lt (by omega), if_neg (by omega)]
    · rw [fork_eq, get_node_eq, get_node_lt hkn, if_neg (by simp), if_neg (by omega)]
    · rw [get_fork_gt hgt]
      split
      · next hside =>
        rw [if_neg]
        rintro ⟨rfl, -⟩
        rw [hbit] at hside
        simp at hside
      · next hside =>
        have hnone : (Trie.node addr nplen real data trie0 trie1).get p' l = none := by
          by_contra hne
          obtain ⟨d, hd⟩ := Option.ne_none_iff_exists'.mp hne
          obtain ⟨-, h₂⟩ := hw.rootCovers hp' hd
          apply hside
          rw [← h₂, getMsbD_topBits, decide_eq_true hkn, Bool.and_true]
        rw [Trie.new, get_leaf, hnone]
        simp

/-- A prefix above the node becomes its parent. -/
theorem AddSpec.above (hw : (Trie.node addr nplen real data trie0 trie1).Wf)
    (hp : topBits p plen = p) (hle : plen ≤ fam.bits) (haddr : addr = p) (hlt : plen < nplen) :
    AddSpec upd p plen (.node addr nplen real data trie0 trie1)
      (.fork p plen true (upd default) (addr.getMsbD plen)
        (.node addr nplen real data trie0 trie1) .nil) := by
  constructor
  · refine Trie.Wf.fork hle hp (by simp) ⟨hlt, ?_, rfl⟩ trivial hw trivial
    rw [haddr, hp]
  · rw [fork_eq]
    exact nofun
  · intro a n side hc hn ha hs
    rw [fork_eq]
    exact ⟨hn, ha, hs⟩
  · intro p' l hp'
    rw [get_node_lt hlt, Option.getD_none]
    obtain hl | rfl | hl := lt_trichotomy l plen
    · rw [fork_eq, get_node_lt hl, get_node_lt (by omega), if_neg (by omega)]
    · rw [fork_eq, get_node_eq, get_node_lt hlt]
      simp [eq_comm]
    · rw [get_fork_gt hl, if_neg (c := _ ∧ _) (by omega)]
      split
      · rfl
      · next hside =>
        -- on the side of the new node without a child there was nothing
        symm
        by_contra hne
        obtain ⟨d, hd⟩ := Option.ne_none_iff_exists'.mp hne
        obtain ⟨-, h₂⟩ := hw.rootCovers hp' hd
        apply hside
        rw [← h₂, getMsbD_topBits, decide_eq_true hlt, Bool.and_true]

theorem AddSpec.same (hw : (Trie.node p plen real data trie0 trie1).Wf) :
    AddSpec upd p plen (.node p plen real data trie0 trie1)
      (.node p plen true (upd data) trie0 trie1) := by
  obtain ⟨hle, haddr, hreal, hrest⟩ := hw
  constructor
  · exact ⟨hle, haddr, by simp, hrest⟩
  · exact nofun
  · exact fun a n side hc _ _ _ => hc
  · intro p' l _
    obtain hl | rfl | hl := lt_trichotomy l plen
    · rw [get_node_lt hl, get_node_lt hl, if_neg (by omega)]
    · have hdata : ((if (p = p ∧ real = true) then some data else none).getD default) = data := by
        cases real with
        | true => simp
        | false => simpa using (hreal rfl).1.symm
      rw [get_node_eq, get_node_eq, get_node_eq, hdata]
      by_cases hpp : p' = p
      · simp [hpp]
      · simp [hpp, Ne.symm hpp]
    · rw [get_node_gt hl, get_node_gt hl, if_neg (c := _ ∧ _) (by omega)]

/-- A prefix below the node goes on in the child of its next bit. -/
theorem AddSpec.below (hw : (Trie.node addr nplen real data trie0 trie1).Wf)
    (haddr : addr = topBits p nplen) (hlt : nplen < plen) {c' : Trie fam.bits δ}
    (hc' : AddSpec upd p plen (if p.getMsbD nplen then trie1 else trie0) c') :
    AddSpec upd p plen (.node addr nplen real data trie0 trie1)
      (.fork addr nplen real data (p.getMsbD nplen) c'
        (if p.getMsbD nplen then trie0 else trie1)) := by
  have hchild := hw.child (p.getMsbD nplen)
  have hother := hw.child (!p.getMsbD nplen)
  have hnot : (if (!p.getMsbD nplen) = true then trie1 else trie0) =
      if p.getMsbD nplen then trie0 else trie1 := by cases p.getMsbD nplen <;> rfl
  rw [hnot] at hother
  obtain ⟨hle, hmask, hreal, -⟩ := hw
  constructor
  · refine Trie.Wf.fork hle hmask (fun h => ⟨(hreal h).1, hc'.ne_nil, ?_⟩)
      (hc'.child _ _ _ hchild.1 hlt haddr.symm rfl) hother.1 hc'.wf hother.2
    split
    · exact (hreal h).2.1
    · exact (hreal h).2.2
  · rw [fork_eq]
    exact nofun
  · intro a n side hc _ _ _
    rw [fork_eq]
    exact hc
  · intro p' l hp'
    rw [get_node_gt hlt]
    obtain hl | rfl | hl := lt_trichotomy l nplen
    · rw [fork_eq, get_node_lt hl, get_node_lt hl, if_neg (by omega)]
    · rw [fork_eq, get_node_eq, get_node_eq, if_neg (c := _ ∧ _ = plen) (by omega)]
    · rw [get_fork_gt hl, get_node_gt hl]
      by_cases hside : p'.getMsbD nplen = p.getMsbD nplen
      · rw [if_pos hside, hc'.get p' l hp', hside]
      · rw [if_neg hside, if_neg (c := _ ∧ _ = plen)]
        · have : p'.getMsbD nplen = !p.getMsbD nplen := by
            cases h₁ : p'.getMsbD nplen <;> cases h₂ : p.getMsbD nplen <;> simp_all
          rw [this]
          cases p.getMsbD nplen <;> rfl
        · rintro ⟨rfl, -⟩
          exact hside rfl

/-- Adding a prefix changes the map at this prefix only. -/
theorem addWalk_spec (hw : t.Wf) (hp : topBits p plen = p) (hle : plen ≤ fam.bits)
    (hok : t.AddOk p plen) : AddSpec upd p plen t (trieAddWalk fam upd p plen t) := by
  induction t with
  | nil => exact AddSpec.leaf hp hle
  | node addr nplen real data trie0 trie1 ih0 ih1 =>
    have hmask : topBits addr nplen = addr := hw.2.1
    by_cases hoff : addr ≠ topBits p (min nplen plen)
    · rw [addWalk_off hoff]
      refine AddSpec.off hw hp hle ?_ (fam.firstDiff _ _ hoff)
      intro h
      rw [Trie.AddOk] at hok
      split at hok
      · next hlt =>
        rw [Nat.min_eq_right hlt.le, hp] at h hoff
        exact hoff (hok h)
      · next hlt =>
        rw [Nat.min_eq_left (by omega), hmask] at h
        rw [Nat.min_eq_left (by omega)] at hoff
        exact hoff h
    rw [not_not] at hoff
    obtain hlt | rfl | hlt := lt_trichotomy nplen plen
    · rw [Nat.min_eq_left hlt.le] at hoff
      rw [addWalk_below hoff hlt]
      apply AddSpec.below hw hoff hlt
      rw [Trie.AddOk, if_neg (by omega), if_pos ⟨hlt, hoff⟩] at hok
      have hwc := (hw.child (p.getMsbD nplen)).2
      split
      · next hbit => rw [if_pos hbit] at hok hwc; exact ih1 hwc hok
      · next hbit => rw [if_neg hbit] at hok hwc; exact ih0 hwc hok
    · rw [Nat.min_self] at hoff
      rw [addWalk_same hoff]
      rw [hp] at hoff
      subst hoff
      exact AddSpec.same hw
    · rw [Nat.min_eq_right hlt.le] at hoff
      rw [addWalk_above hoff hlt]
      exact AddSpec.above hw hp hle (hoff.trans hp) hlt

end Add

/-! ## Which insertions go wrong -/

/-- The prefixes in a trie. -/
def Trie.Key (t : Trie w δ) (e : BitVec w × ℕ) : Prop :=
  topBits e.1 e.2 = e.1 ∧ ∃ d, t.get e.1 e.2 = some d

/-- A prefix strictly inside `p/plen`. -/
def Inside (p : BitVec w) (plen : ℕ) (e : BitVec w × ℕ) : Prop :=
  plen < e.2 ∧ topBits e.1 plen = p

/-- The new prefix `p/plen` is not among the prefixes `K`, and all prefixes of `K` inside it are
    inside one of the prefixes `p 1`, `p 01`, `p 001` and so on. -/
structure Lost (K : BitVec w × ℕ → Prop) (p : BitVec w) (plen : ℕ) : Prop where
  fresh : ¬K (p, plen)
  inside : ∃ e, K e ∧ Inside p plen e
  hidden : ∃ j, plen ≤ j ∧ ∀ e, K e → Inside p plen e →
    j < e.2 ∧ topBits e.1 j = topBits p j ∧ e.1.getMsbD j = true

theorem AddSpec.key_iff {fam : Family} {upd : δ → δ} {p : BitVec fam.bits} {t t' : Trie fam.bits δ}
    (h : AddSpec upd p plen t t') (hp : topBits p plen = p) (e : BitVec fam.bits × ℕ) :
    t'.Key e ↔ e = (p, plen) ∨ t.Key e := by
  obtain ⟨a, l⟩ := e
  unfold Trie.Key
  dsimp only
  by_cases heq : a = p ∧ l = plen
  · obtain ⟨rfl, rfl⟩ := heq
    refine iff_of_true ⟨hp, ?_⟩ (Or.inl rfl)
    rw [h.get _ _ hp, if_pos ⟨rfl, rfl⟩]
    exact ⟨_, rfl⟩
  · rw [or_iff_right (fun h => heq (Prod.mk.inj h))]
    refine and_congr_right fun hmask => ?_
    rw [h.get _ _ hmask, if_neg heq]

theorem Lost.congr {K K' : BitVec w × ℕ → Prop} (hself : K (p, plen) ↔ K' (p, plen))
    (h : ∀ e, Inside p plen e → (K e ↔ K' e)) : Lost K p plen ↔ Lost K' p plen := by
  have main : ∀ {K K' : BitVec w × ℕ → Prop}, (K (p, plen) ↔ K' (p, plen)) →
      (∀ e, Inside p plen e → (K e ↔ K' e)) → Lost K p plen → Lost K' p plen := by
    rintro K K' hself h ⟨hfresh, ⟨e, he, hin⟩, j, hj, hall⟩
    exact ⟨fun hk => hfresh (hself.mpr hk), ⟨e, (h e hin).mp he, hin⟩, j, hj,
      fun e he hin => hall e ((h e hin).mpr he) hin⟩
  exact ⟨main hself h, main hself.symm fun e he => (h e he).symm⟩

theorem Trie.Wf.key_inside (hw : (Trie.node addr nplen real data trie0 trie1).Wf)
    {e : BitVec w × ℕ} (h : (Trie.node addr nplen real data trie0 trie1).Key e) :
    nplen ≤ e.2 ∧ topBits e.1 nplen = addr := by
  obtain ⟨hmask, d, hd⟩ := h
  exact hw.rootCovers hmask hd

/-- The prefixes of a node are its own one and those of its children. -/
theorem key_node_iff (hw : (Trie.node addr nplen real data trie0 trie1).Wf) {e : BitVec w × ℕ} :
    (Trie.node addr nplen real data trie0 trie1).Key e ↔
      (e = (addr, nplen) ∧ real = true) ∨ (if e.1.getMsbD nplen then trie1 else trie0).Key e := by
  obtain ⟨a, l⟩ := e
  obtain ⟨hc, hwc⟩ := hw.child (a.getMsbD nplen)
  have hlong : (if a.getMsbD nplen then trie1 else trie0).Key (a, l) → nplen < l := by
    rintro ⟨hmask, d, hd⟩
    exact (hc.get_inside hwc hmask hd).1
  have hmask : topBits addr nplen = addr := hw.2.1
  unfold Trie.Key at hlong ⊢
  dsimp only at hlong ⊢
  obtain hlt | rfl | hgt := lt_trichotomy l nplen
  · rw [get_node_lt hlt]
    refine iff_of_false (by simp) ?_
    rintro (⟨h, -⟩ | h)
    · exact absurd (Prod.mk.inj h).2 (by omega)
    · exact absurd (hlong h) (by omega)
  · rw [get_node_eq, or_iff_left (fun h => absurd (hlong h) (lt_irrefl _))]
    cases real with
    | false => simp
    | true =>
      constructor
      · rintro ⟨-, d, hd⟩
        split at hd
        · next h => exact ⟨by rw [h.1], rfl⟩
        · exact absurd hd (by simp)
      · rintro ⟨h, -⟩
        obtain rfl := (Prod.mk.inj h).1
        exact ⟨hmask, data, by simp⟩
  · rw [get_node_gt hgt, or_iff_right]
    rintro ⟨h, -⟩
    exact absurd (Prod.mk.inj h).2 (by omega)

/-- A prefix of a child is on the side of this child. -/
theorem key_of_child (hw : (Trie.node addr nplen real data trie0 trie1).Wf) (side : Bool)
    {e : BitVec w × ℕ} (h : (if side then trie1 else trie0).Key e) :
    (Trie.node addr nplen real data trie0 trie1).Key e ∧ e.1.getMsbD nplen = side := by
  obtain ⟨hc, hwc⟩ := hw.child side
  obtain ⟨hmask, d, hd⟩ := h
  have hbit := (hc.get_inside hwc hmask hd).2.2
  refine ⟨(key_node_iff hw).mpr (Or.inr ?_), hbit⟩
  rw [hbit]
  exact ⟨hmask, d, hd⟩

theorem Trie.Wf.exists_key (hw : t.Wf) (hne : t ≠ .nil) : ∃ e, t.Key e := by
  induction t with
  | nil => exact absurd rfl hne
  | node addr nplen real data trie0 trie1 _ ih1 =>
    cases real with
    | true => exact ⟨(addr, nplen), (key_node_iff hw).mpr (Or.inl ⟨rfl, rfl⟩)⟩
    | false =>
      obtain ⟨-, -, hreal, -, -, -, hw1⟩ := id hw
      obtain ⟨e, he⟩ := ih1 hw1 (hreal rfl).2.2
      exact ⟨e, (key_of_child hw true he).1⟩

/-- A node at the address of the new prefix, inside it or at its length: the prefixes below are
    not all hidden behind one bit. -/
theorem not_lost_of_node (hw : (Trie.node addr nplen real data trie0 trie1).Wf) (hle : plen ≤ nplen)
    (haddr : addr = p) (hp : topBits p plen = p) :
    ¬Lost (Trie.node addr nplen real data trie0 trie1).Key p plen := by
  rintro ⟨hfresh, ⟨e₀, hk₀, hin₀⟩, j, hj, hall⟩
  have hzero : ∀ i, plen ≤ i → p.getMsbD i = false := (eq_topBits_iff.mp hp.symm).2
  have hroot : ∀ e, (Trie.node addr nplen real data trie0 trie1).Key e → topBits e.1 plen = p := by
    intro e he
    have := (hw.key_inside he).2
    rw [← hp, ← haddr, ← this, topBits_topBits_of_le hle]
  -- a prefix that is inside and has a zero bit at the node, and one that has a one bit
  by_cases hjn : j < nplen
  · obtain ⟨-, -, hbit⟩ := hall e₀ hk₀ hin₀
    have htop := (hw.key_inside hk₀).2
    have : addr.getMsbD j = true := by
      rw [← htop, getMsbD_topBits, hbit, decide_eq_true hjn]
      rfl
    rw [haddr, hzero j hj] at this
    exact absurd this (by simp)
  · cases real with
    | true =>
      have hself : (Trie.node addr nplen true data trie0 trie1).Key (addr, nplen) :=
        (key_node_iff hw).mpr (Or.inl ⟨rfl, rfl⟩)
      obtain heq | hlt := Nat.eq_or_lt_of_le hle
      · rw [haddr, ← heq] at hself
        rw [haddr, ← heq] at hfresh
        exact hfresh hself
      · have := (hall _ hself ⟨hlt, hroot _ hself⟩).1
        dsimp only at this
        omega
    | false =>
      obtain ⟨-, -, hreal, hc0, hc1, hw0, hw1⟩ := id hw
      obtain ⟨e0, he0⟩ := hw0.exists_key (hreal rfl).2.1
      obtain ⟨e1, he1⟩ := hw1.exists_key (hreal rfl).2.2
      obtain ⟨hk0, hb0⟩ := key_of_child hw false he0
      obtain ⟨hk1, hb1⟩ := key_of_child hw true he1
      have hlen0 := (hc0.get_inside hw0 he0.1 he0.2.choose_spec).1
      have hlen1 := (hc1.get_inside hw1 he1.1 he1.2.choose_spec).1
      obtain ⟨-, -, hbit⟩ := hall e0 hk0 ⟨by omega, hroot _ hk0⟩
      obtain ⟨-, htop, -⟩ := hall e1 hk1 ⟨by omega, hroot _ hk1⟩
      obtain heq | hlt := Nat.eq_or_lt_of_le (Nat.le_of_not_lt hjn)
      · rw [← heq, hb0] at hbit
        exact absurd hbit (by simp)
      · have := topBits_eq_iff.mp htop nplen hlt
        rw [hb1, hzero nplen hle] at this
        exact absurd this (by simp)

/-- A node inside the new prefix, at another address: all prefixes below it have the same bit
    where the addresses part. -/
theorem lost_of_node (hw : (Trie.node addr nplen real data trie0 trie1).Wf) (hlt : plen < nplen)
    (htop : topBits addr plen = p) (haddr : addr ≠ p) (hp : topBits p plen = p) :
    Lost (Trie.node addr nplen real data trie0 trie1).Key p plen := by
  obtain ⟨k, hk⟩ := exists_firstDiff haddr
  have hplen : plen ≤ k := by
    by_contra h
    apply hk.differ
    rw [← htop, getMsbD_topBits, decide_eq_true (by omega), Bool.and_true]
  have hbit : addr.getMsbD k = true := by
    have := hk.differ
    rw [(eq_topBits_iff.mp hp.symm).2 k hplen] at this
    simpa using this
  have hkn : k < nplen := by
    by_contra h
    rw [(eq_topBits_iff.mp hw.2.1.symm).2 k (by omega)] at hbit
    exact absurd hbit (by simp)
  obtain ⟨e, he⟩ := hw.exists_key nofun
  have hin : ∀ e, (Trie.node addr nplen real data trie0 trie1).Key e → Inside p plen e := by
    intro e he
    obtain ⟨hle, hroot⟩ := hw.key_inside he
    refine ⟨by omega, ?_⟩
    rw [← htop, ← hroot, topBits_topBits_of_le hlt.le]
  refine ⟨fun h => ?_, ⟨e, he, hin e he⟩, k, hplen, fun e he _ => ?_⟩
  · have := (hw.key_inside h).1
    dsimp only at this
    omega
  · obtain ⟨hle, hroot⟩ := hw.key_inside he
    refine ⟨by omega, ?_, ?_⟩
    · rw [← hk.topBits, ← hroot, topBits_topBits_of_le hkn.le]
    · rw [← hroot, getMsbD_topBits] at hbit
      exact ((Bool.and_eq_true _ _).mp hbit).1

/-- The walk goes wrong iff the new prefix gets lost among the prefixes in the trie. -/
theorem addOk_iff (hw : t.Wf) (hp : topBits p plen = p) :
    t.AddOk p plen ↔ ¬Lost t.Key p plen := by
  induction t with
  | nil =>
    refine iff_of_true trivial ?_
    rintro ⟨-, ⟨e, ⟨-, d, hd⟩, -⟩, -⟩
    exact absurd hd (by simp [Trie.get])
  | node addr nplen real data trie0 trie1 ih0 ih1 =>
    have hmask : topBits addr nplen = addr := hw.2.1
    rw [Trie.AddOk]
    split
    · next hlt =>
      by_cases htop : topBits addr plen = p
      · by_cases haddr : addr = p
        · exact iff_of_true (fun _ => haddr) (not_lost_of_node hw hlt.le haddr hp)
        · -- the first bit at which the two differ hides the new prefix
          refine iff_of_false (fun h => haddr (h htop)) (not_not.mpr ?_)
          exact lost_of_node hw hlt htop haddr hp
      · -- nothing is inside the new prefix
        refine iff_of_true (fun h => absurd h htop) ?_
        rintro ⟨-, ⟨e, he, -, hin⟩, -⟩
        apply htop
        rw [← (hw.key_inside he).2, topBits_topBits_of_le hlt.le, hin]
    · next hge =>
      split
      · next hbelow =>
        obtain ⟨hlt, haddr⟩ := hbelow
        have hwc := (hw.child (p.getMsbD nplen)).2
        have hcongr : Lost (Trie.node addr nplen real data trie0 trie1).Key p plen ↔
            Lost (if p.getMsbD nplen then trie1 else trie0).Key p plen := by
          apply Lost.congr
          · rw [key_node_iff hw, or_iff_right]
            rintro ⟨h, -⟩
            exact absurd (Prod.mk.inj h).2 (by omega)
          · rintro ⟨a, l⟩ ⟨hl, htop⟩
            rw [key_node_iff hw, or_iff_right]
            · have : a.getMsbD nplen = p.getMsbD nplen := by
                rw [← htop, getMsbD_topBits, decide_eq_true hlt, Bool.and_true]
              rw [this]
            · rintro ⟨h, -⟩
              exact absurd (Prod.mk.inj h).2 (by dsimp only at hl; omega)
        rw [hcongr]
        split
        · next hbit => rw [if_pos hbit] at hwc; exact ih1 hwc
        · next hbit => rw [if_neg hbit] at hwc; exact ih0 hwc
      · next hno =>
        refine iff_of_true trivial ?_
        by_cases haddr : addr = topBits p nplen
        · have heq : nplen = plen := by
            by_contra hne
            exact hno ⟨by omega, haddr⟩
          rw [heq, hp] at haddr
          exact not_lost_of_node hw heq.ge haddr hp
        · -- off the path nothing is inside the new prefix
          rintro ⟨-, ⟨e, he, -, hin⟩, -⟩
          apply haddr
          rw [← (hw.key_inside he).2, ← hin, topBits_topBits_of_le (by omega)]

end Bgpd.Rpki
