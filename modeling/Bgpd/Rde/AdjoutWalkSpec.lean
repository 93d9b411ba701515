import Mathlib.Data.List.TakeWhile
import Bgpd.Lib.Run
import Bgpd.Rde.AdjoutWalk

/-!
# The Prefix Table under Walks over an Adj-RIB-Out

The prefix table stays sorted, and an entry at which a context pauses stays in it, as the context
holds one of its references. `pt_first` finds the first entry of a family by comparing with a key
that is not greater than any entry of the family; for the flowspec families there is no such key.

## Main results

- `ptFirst_le`: the key of a family
- `dumpLoop_spec`: a round
- `WalkInv.step`: what every event keeps
-/

namespace Bgpd.Rde.AdjoutWalk

open Bgpd.Lib Std
open Nlri (ptPrefixCmp ptFill padTo specCmp)

/-! ## The order of the table -/

section Order

variable {a b c : Nlri.PtEntry}

theorem lt_trans' (ha : a.Ok) (hb : b.Ok) (hc : c.Ok) (h : ptPrefixCmp a b = .lt)
    (h' : ptPrefixCmp b c = .lt) : ptPrefixCmp a c = .lt := by
  rw [Nlri.ptPrefixCmp_eq_specCmp ha hb] at h
  rw [Nlri.ptPrefixCmp_eq_specCmp hb hc] at h'
  rw [Nlri.ptPrefixCmp_eq_specCmp ha hc]
  have := Nlri.specCmp_trans
  exact TransCmp.lt_trans h h'

theorem cmp_self (ha : a.Ok) : ptPrefixCmp a a = .eq := by
  rw [Nlri.ptPrefixCmp_eq_specCmp ha ha]
  have := Nlri.specCmp_trans
  exact ReflCmp.compare_self

theorem cmp_swap (ha : a.Ok) (hb : b.Ok) : ptPrefixCmp a b = (ptPrefixCmp b a).swap := by
  rw [Nlri.ptPrefixCmp_eq_specCmp ha hb, Nlri.ptPrefixCmp_eq_specCmp hb ha]
  have := Nlri.specCmp_trans
  exact OrientedCmp.eq_swap

/-- What is before an entry is before everything that is not before that entry. -/
theorem lt_of_lt_of_not_lt (ha : a.Ok) (hb : b.Ok) (hc : c.Ok) (h : ptPrefixCmp a b = .lt)
    (h' : ptPrefixCmp c b ≠ .lt) : ptPrefixCmp a c = .lt := by
  rw [cmp_swap hc hb, Nlri.ptPrefixCmp_eq_specCmp hb hc] at h'
  rw [Nlri.ptPrefixCmp_eq_specCmp ha hb] at h
  rw [Nlri.ptPrefixCmp_eq_specCmp ha hc]
  have := Nlri.specCmp_trans
  refine TransCmp.lt_of_lt_of_isLE h ?_
  cases hbc : specCmp b c with
  | lt => rfl
  | eq => rfl
  | gt =>
    rw [hbc] at h'
    exact absurd rfl h'

theorem not_lt_of_lt (ha : a.Ok) (hb : b.Ok) (h : ptPrefixCmp a b = .lt) :
    ptPrefixCmp b a ≠ .lt := by
  rw [cmp_swap hb ha, h]
  simp

end Order

/-- Nothing is less than zeros. -/
theorem compare_zeros {l l' : List ℕ} (hzero : ∀ n ∈ l, n = 0) (hlen : l.length = l'.length) :
    compare l l' ≠ .gt := by
  induction l generalizing l' with
  | nil =>
    cases l' with
    | nil => simp
    | cons _ _ => cases hlen
  | cons n l ih =>
    cases l' with
    | nil => cases hlen
    | cons n' l' =>
      rw [List.compare_cons_cons, hzero n List.mem_cons_self]
      cases hn : compare 0 n' with
      | lt => simp
      | gt => exact absurd (Nat.compare_eq_gt.1 hn) (Nat.not_lt_zero _)
      | eq =>
        exact ih (fun m hm => hzero m (List.mem_cons_of_mem _ hm)) (by simpa using hlen)

/-- A flowspec family. -/
def isFlow : Aid → Bool
  | .flowspec4 | .flowspec6 => true
  | _ => false

/-- The key that `pt_first` looks for is not greater than any entry of the family. -/
theorem ptFirst_le {aid : Aid} (haid : isFlow aid = false) {pt : Nlri.PtEntry} (hok : pt.Ok)
    (hpt : pt.aid = aid) : ∃ k, ptFillFirst aid = some k ∧ ptPrefixCmp k pt ≠ .gt := by
  -- a key of all zeros is the smallest of its family
  have hcmp : ∀ k : Nlri.PtEntry, k.Ok → k.aid = pt.aid → (∀ n ∈ k.numKey, n = 0) →
      k.numKey.length = pt.numKey.length → k.aid.val ≠ 5 → k.aid.val ≠ 6 →
      ptPrefixCmp k pt ≠ .gt := by
    intro k hk haid hzero hlen h₅ h₆
    rw [Nlri.ptPrefixCmp_eq_specCmp hk hok]
    unfold specCmp thenOn
    dsimp only
    rw [haid] at h₅ h₆ ⊢
    rw [compare_self, Ordering.eq_then, if_neg h₅, if_neg h₆]
    exact compare_zeros hzero hlen
  cases pt with
  | inet plen a =>
    subst hpt
    exact ⟨_, rfl, hcmp _ trivial rfl (by decide) (by simp [ptFill, Nlri.PtEntry.numKey])
      (by decide) (by decide)⟩
  | inet6 plen a =>
    subst hpt
    exact ⟨_, rfl, hcmp _ trivial rfl (by decide)
      (by simp [ptFill, Nlri.PtEntry.numKey, Nlri.byteNats, a.2, (Nlri.applymask _ _).2])
      (by decide) (by decide)⟩
  | vpn4 plen rd a l =>
    subst hpt
    exact ⟨_, rfl, hcmp _ trivial rfl (by decide) (by simp [ptFill, Nlri.PtEntry.numKey])
      (by decide) (by decide)⟩
  | vpn6 plen rd a l =>
    subst hpt
    exact ⟨_, rfl, hcmp _ trivial rfl (by decide)
      (by simp [ptFill, Nlri.PtEntry.numKey, Nlri.byteNats, a.2, (Nlri.applymask _ _).2])
      (by decide) (by decide)⟩
  | evpn plen e =>
    subst hpt
    refine ⟨_, rfl, hcmp _ rfl rfl (by decide) ?_ (by decide) (by decide)⟩
    simp [ptFill, Nlri.PtEntry.numKey, Nlri.byteNats, (padTo _ _).2, e.mac.2, Nlri.EvpnIp.mem]
  | flow isV6 f =>
    subst hpt
    cases isV6 <;> cases haid

/-! ## Entries of peers -/

/-- The peer has an entry with the path id. -/
def HasBit (arr : List AdjoutPrefix) (q : PeerId) (id : ℕ) : Prop :=
  ∃ p ∈ arr, p.pathIdTx = id ∧ q ∈ p.peermap

section Arrays

variable {arr : List AdjoutPrefix} {q q' : PeerId} {id id' i : ℕ} {attrs : AdjoutAttr}

/-- The entries that a loop over the entries of a peer visits. -/
theorem hasBit_iff (h : AdjoutWf arr) :
    HasBit arr q id ↔ id ∈ (adjoutPrefixes q arr).map (·.2.pathIdTx) := by
  rw [h.adjoutPrefixes_ids]
  constructor
  · rintro ⟨p, hp, rfl, hq⟩
    obtain ⟨a, ha⟩ := h.exists_attrs hp hq
    refine List.mem_map.mpr ⟨(p.pathIdTx, a), ?_, rfl⟩
    rw [adjoutEntries_eq]
    exact List.mem_filterMap.mpr ⟨p, hp, p.entry_some hq ha⟩
  · intro hmem
    obtain ⟨e, he, rfl⟩ := List.mem_map.mp hmem
    rw [adjoutEntries_eq] at he
    obtain ⟨p, hp, hentry⟩ := List.mem_filterMap.mp he
    refine ⟨p, hp, (AdjoutPrefix.entry_fst hentry).symm, ?_⟩
    by_contra hq
    rw [AdjoutPrefix.entry_none hq] at hentry
    cases hentry

theorem prefixes_nodup (h : AdjoutWf arr) (q : PeerId) :
    ((adjoutPrefixes q arr).map (·.2.pathIdTx)).Nodup := by
  rw [h.adjoutPrefixes_ids]
  exact h.nodup q

/-- Only the entry that is unlinked is gone. -/
theorem HasBit.unlink (h : HasBit arr q' id') :
    HasBit (adjoutPrefixUnlink q i arr) q' id' ∨
      q' = q ∧ ∃ p, arr[i]? = some p ∧ p.pathIdTx = id' := by
  obtain ⟨p, hp, rfl, hq⟩ := h
  obtain ⟨j, hj, rfl⟩ := List.getElem_of_mem hp
  have hj' : j < (adjoutPrefixUnlink q i arr).length := by
    rw [adjoutPrefixUnlink, List.length_modify]
    exact hj
  by_cases hij : i = j
  · subst hij
    by_cases hqq : q' = q
    · exact Or.inr ⟨hqq, _, List.getElem?_eq_getElem hj, rfl⟩
    · refine Or.inl ⟨_, List.getElem_mem hj', ?_, ?_⟩
      · simp [adjoutPrefixUnlink, AdjoutPrefix.unlink]
      · simp [adjoutPrefixUnlink, AdjoutPrefix.unlink, hq, hqq]
  · refine Or.inl ⟨_, List.getElem_mem hj', ?_, ?_⟩
    · simp [adjoutPrefixUnlink, hij]
    · simpa [adjoutPrefixUnlink, hij] using hq

theorem HasBit.collect (hwf : AdjoutWf arr) (h : HasBit arr q id) :
    HasBit (adjoutPrefixCollect arr) q id := by
  obtain ⟨p, hp, hid, hq⟩ := h
  refine ⟨p, List.mem_filter.mpr ⟨hp, ?_⟩, hid, hq⟩
  exact hwf.attrs p hp (List.ne_nil_of_mem hq)

/-- Linking a peer takes no other peer's bit. -/
theorem HasBit.link (h : HasBit arr q' id') : HasBit (adjoutPrefixLink q attrs id arr) q' id' := by
  obtain ⟨p, hp, rfl, hq⟩ := h
  unfold adjoutPrefixLink
  split
  · next i _ =>
    obtain ⟨j, hj, rfl⟩ := List.getElem_of_mem hp
    have hj' : j < (arr.modify i fun p =>
        { p with peermap := bitmapSet q p.peermap }).length := by simpa using hj
    refine ⟨_, List.getElem_mem hj', ?_, ?_⟩
    · rw [List.getElem_modify]
      split <;> rfl
    · rw [List.getElem_modify]
      split
      · exact mem_bitmapSet.mpr (Or.inr hq)
      · exact hq
  · obtain ⟨l, r, rfl, heq, -, -⟩ := adjoutPrefixAlloc_split ⟨id, some attrs, [q]⟩ arr
    rw [heq]
    refine ⟨p, ?_, rfl, hq⟩
    rcases List.mem_append.mp hp with hp | hp
    · exact List.mem_append_left _ hp
    · exact List.mem_append_right _ (List.mem_cons_of_mem _ hp)

theorem hasBit_link_self : HasBit (adjoutPrefixLink q attrs id arr) q id := by
  obtain ⟨l, m, r, new, -, heq, hid, -, hq, -⟩ := adjoutPrefixLink_split q attrs id arr
  rw [heq]
  exact ⟨new, by simp, hid, hq⟩

/-- `adjout_prefix_update` takes no entry away. -/
theorem HasBit.update (h : HasBit arr q' id') :
    HasBit (AdjoutWalks.updateArray q attrs id arr) q' id' := by
  unfold AdjoutWalks.updateArray
  split
  · exact h.link
  · next i hget =>
    rcases h.unlink (q := q) (i := i) with h | ⟨rfl, p, hp, rfl⟩
    · exact h.link
    · -- the entry itself is linked again
      obtain ⟨p', hp', rfl, -⟩ := adjoutPrefixGet_some hget
      rw [Option.some.inj (hp.symm.trans hp')]
      exact hasBit_link_self

theorem HasBit.withdraw (h : HasBit arr q' id') :
    HasBit (AdjoutWalks.withdrawArray q id arr) q' id' ∨ q' = q ∧ id' = id := by
  unfold AdjoutWalks.withdrawArray
  split
  · exact Or.inl h
  · next i hget =>
    rcases h.unlink (q := q) (i := i) with h | ⟨rfl, p, hp, rfl⟩
    · exact Or.inl h
    · obtain ⟨p', hp', rfl, -⟩ := adjoutPrefixGet_some hget
      exact Or.inr ⟨rfl, by rw [Option.some.inj (hp.symm.trans hp')]⟩

theorem wf_update (h : AdjoutWf arr) : AdjoutWf (AdjoutWalks.updateArray q attrs id arr) := by
  unfold AdjoutWalks.updateArray
  split
  · next hget => exact h.link (adjoutPrefixGet_none h.sorted hget)
  · next i hget =>
    obtain ⟨p, hp, rfl, hq⟩ := adjoutPrefixGet_some hget
    refine (h.unlink hp).link ?_
    rw [h.adjoutView_unlink hp hq, if_pos rfl]

theorem wf_withdraw (h : AdjoutWf arr) : AdjoutWf (AdjoutWalks.withdrawArray q id arr) := by
  unfold AdjoutWalks.withdrawArray
  split
  · exact h
  · next i hget =>
    obtain ⟨p, hp, -, -⟩ := adjoutPrefixGet_some hget
    exact h.unlink hp

end Arrays

/-! ## Rounds -/

variable {addr : Ptr} {q q' : PeerId} {id : ℕ} {upcall : Upcall} {ctx : WalkContext}
  {k pt : Nlri.PtEntry} {n n' : PtNode} {log log' : List WalkObs}

/-- The entries for which the callback of a context was called, in this order. -/
def callsOf (addr : Ptr) : List WalkObs → List (Nlri.PtEntry × ℕ)
  | [] => []
  | .call a pt id :: l => if a = addr then (pt, id) :: callsOf addr l else callsOf addr l
  | _ :: l => callsOf addr l

theorem callsOf_append (addr : Ptr) (l l' : List WalkObs) :
    callsOf addr (l ++ l') = callsOf addr l ++ callsOf addr l' := by
  induction l with
  | nil => rfl
  | cons x l ih =>
    cases x with
    | call a pt id =>
      rw [List.cons_append, callsOf, callsOf, ih]
      split_ifs <;> rfl
    | done a => exact ih
    | lost pt q id => exact ih

theorem mem_callsOf {l : List WalkObs} {x : Nlri.PtEntry × ℕ} :
    x ∈ callsOf addr l ↔ .call addr x.1 x.2 ∈ l := by
  induction l with
  | nil => simp [callsOf]
  | cons y l ih =>
    cases y with
    | call a pt id =>
      rw [callsOf]
      split_ifs with ha
      · subst ha
        rw [List.mem_cons, List.mem_cons, ih, WalkObs.call.injEq]
        constructor
        · rintro (rfl | h)
          · exact Or.inl ⟨rfl, rfl, rfl⟩
          · exact Or.inr h
        · rintro (⟨-, h₁, h₂⟩ | h)
          · exact Or.inl (Prod.ext h₁ h₂)
          · exact Or.inr h
      · rw [ih, List.mem_cons, WalkObs.call.injEq]
        exact ⟨Or.inr, fun h => h.resolve_left fun h => ha h.1.symm⟩
    | done a => simpa [callsOf] using ih
    | lost pt q id => simpa [callsOf] using ih

/-- The calls for the entries of a destination. -/
def callsFor (q : PeerId) (n : PtNode) : List (Nlri.PtEntry × ℕ) :=
  (adjoutPrefixes q n.adjout).map fun e => (n.pt, e.2.pathIdTx)

/-- What a round leaves of an entry of the table: its references, and the entries of peers that
    are not logged as lost. -/
structure NodeKept (log : List WalkObs) (n n' : PtNode) : Prop where
  pt : n'.pt = n.pt
  refcnt : n.refcnt ≤ n'.refcnt
  wf : AdjoutWf n.adjout → AdjoutWf n'.adjout
  has : AdjoutWf n.adjout → ∀ q id, HasBit n.adjout q id →
    HasBit n'.adjout q id ∨ .lost n.pt q id ∈ log
  peers : ∀ p' ∈ n'.adjout, ∀ q ∈ p'.peermap, ∃ p ∈ n.adjout, q ∈ p.peermap

theorem NodeKept.refl (n : PtNode) : NodeKept log n n :=
  ⟨rfl, Nat.le_refl _, fun h => h, fun _ _ _ h => Or.inl h, fun p hp _ hq => ⟨p, hp, hq⟩⟩

theorem NodeKept.mono (h : NodeKept log n n') (hlog : ∀ x ∈ log, x ∈ log') :
    NodeKept log' n n' :=
  ⟨h.pt, h.refcnt, h.wf, fun hwf q id hb => (h.has hwf q id hb).imp_right (hlog _), h.peers⟩

theorem NodeKept.trans {n₁ : PtNode} (h : NodeKept log n n₁) (h' : NodeKept log' n₁ n') :
    NodeKept (log ++ log') n n' where
  pt := h'.pt.trans h.pt
  refcnt := h.refcnt.trans h'.refcnt
  wf hwf := h'.wf (h.wf hwf)
  has hwf q id hb := by
    rcases h.has hwf q id hb with hb | hlost
    · rw [← h.pt]
      exact (h'.has (h.wf hwf) q id hb).imp_right (List.mem_append_right _)
    · exact Or.inr (List.mem_append_left _ hlost)
  peers p' hp' q hq := by
    obtain ⟨p₁, hp₁, hq₁⟩ := h'.peers p' hp' q hq
    exact h.peers p₁ hp₁ q hq₁

theorem getElem?_unlink {arr : List AdjoutPrefix} {i j : ℕ} {p : AdjoutPrefix}
    (h : arr[j]? = some p) :
    ∃ p', (adjoutPrefixUnlink q i arr)[j]? = some p' ∧ p'.pathIdTx = p.pathIdTx := by
  rw [adjoutPrefixUnlink, List.getElem?_modify, h]
  split_ifs
  · exact ⟨_, rfl, rfl⟩
  · exact ⟨_, rfl, rfl⟩

theorem peers_unlink {arr : List AdjoutPrefix} {i : ℕ} {p : AdjoutPrefix}
    (hp : p ∈ adjoutPrefixUnlink q i arr) (hq : q' ∈ p.peermap) :
    ∃ p₀ ∈ arr, q' ∈ p₀.peermap := by
  obtain ⟨j, hj, rfl⟩ := List.getElem_of_mem hp
  have hj' : j < arr.length := by simpa [adjoutPrefixUnlink] using hj
  refine ⟨arr[j], List.getElem_mem hj', ?_⟩
  simp only [adjoutPrefixUnlink, List.getElem_modify] at hq
  split at hq
  · exact List.mem_of_mem_filter hq
  · exact hq

/-- An element is unlinked. -/
theorem NodeKept.unlink {i : ℕ} {p : AdjoutPrefix} (hp : n.adjout[i]? = some p) :
    NodeKept [.lost n.pt q p.pathIdTx] n
      { n with adjout := adjoutPrefixUnlink q i n.adjout } where
  pt := rfl
  refcnt := Nat.le_refl _
  wf hwf := hwf.unlink hp
  has hwf q' id hb := by
    rcases hb.unlink (q := q) (i := i) with hb | ⟨rfl, p', hp', rfl⟩
    · exact Or.inl hb
    · rw [Option.some.inj (hp'.symm.trans hp)]
      exact Or.inr (List.mem_singleton_self _)
  peers _ hp' _ hq' := peers_unlink hp' hq'

/-- The walk calls the upcall once for each entry that was there at its start. -/
theorem visitEntries_spec {es : List (ℕ × AdjoutPrefix)}
    (hes : ∀ e ∈ es, ∃ p, n.adjout[e.1]? = some p ∧ p.pathIdTx = e.2.pathIdTx) :
    NodeKept (visitEntries addr q upcall es n).2 n (visitEntries addr q upcall es n).1 ∧
      callsOf addr (visitEntries addr q upcall es n).2 =
        es.map fun e => (n.pt, e.2.pathIdTx) := by
  induction es generalizing n with
  | nil => exact ⟨NodeKept.refl n, rfl⟩
  | cons e es ih =>
    obtain ⟨i, p⟩ := e
    obtain ⟨p₀, hp₀, hid⟩ := hes (i, p) List.mem_cons_self
    -- the node after the callback
    obtain ⟨n₁, hn₁⟩ : ∃ n₁ : PtNode, n₁ = { n with
        refcnt := if (upcall n.pt p).ref then n.refcnt + 1 else n.refcnt
        adjout := if (upcall n.pt p).withdraw then adjoutPrefixUnlink q i n.adjout
          else n.adjout } := ⟨_, rfl⟩
    have hkept : NodeKept (if (upcall n.pt p).withdraw then [.lost n.pt q p.pathIdTx] else [])
        n n₁ := by
      have href : ∀ m : PtNode, NodeKept [] m
          { m with refcnt := if (upcall n.pt p).ref then m.refcnt + 1 else m.refcnt } := by
        intro m
        refine ⟨rfl, ?_, fun h => h, fun _ _ _ h => Or.inl h, fun p hp q hq => ⟨p, hp, hq⟩⟩
        dsimp only
        split_ifs
        · exact Nat.le_succ _
        · exact Nat.le_refl _
      rw [hn₁]
      by_cases hw : (upcall n.pt p).withdraw = true
      · simp only [if_pos hw]
        have hk := (NodeKept.unlink (q := q) hp₀).trans (href _)
        rw [List.append_nil, hid] at hk
        exact hk
      · simp only [if_neg hw]
        exact href n
    -- the entries still to be visited keep their place
    have hes₁ : ∀ e ∈ es, ∃ p, n₁.adjout[e.1]? = some p ∧ p.pathIdTx = e.2.pathIdTx := by
      intro e he
      obtain ⟨p', hp', hid'⟩ := hes e (List.mem_cons_of_mem _ he)
      rw [hn₁]
      dsimp only
      split_ifs
      · obtain ⟨p'', hp'', hid''⟩ := getElem?_unlink (q := q) (i := i) hp'
        exact ⟨p'', hp'', hid''.trans hid'⟩
      · exact ⟨p', hp', hid'⟩
    obtain ⟨hk, hcalls⟩ := ih hes₁
    rw [visitEntries]
    simp only [← hn₁]
    constructor
    · exact (hkept.trans hk).mono fun x hx => List.mem_cons_of_mem _ hx
    · rw [callsOf, if_pos rfl, callsOf_append, hcalls, hkept.pt, List.map_cons]
      split_ifs <;> rfl

theorem visit_spec (hwf : AdjoutWf n.adjout) :
    NodeKept (visit addr q upcall n).2 n (visit addr q upcall n).1 ∧
      callsOf addr (visit addr q upcall n).2 = callsFor q n := by
  have hes : ∀ e ∈ adjoutPrefixes q n.adjout,
      ∃ p, n.adjout[e.1]? = some p ∧ p.pathIdTx = e.2.pathIdTx := fun e he =>
    ⟨e.2, (hwf.adjoutPrefixes_get he).1, rfl⟩
  obtain ⟨hk, hcalls⟩ := @visitEntries_spec addr q upcall n _ hes
  refine ⟨?_, hcalls⟩
  have hcollect : ∀ m : PtNode, NodeKept [] m
      { m with adjout := adjoutPrefixCollect m.adjout } := fun m =>
    ⟨rfl, Nat.le_refl _, fun h => h.collect, fun h _ _ hb => Or.inl (hb.collect h),
      fun p hp q hq => ⟨p, List.mem_of_mem_filter hp, hq⟩⟩
  have hk' := hk.trans (hcollect _)
  rw [List.append_nil] at hk'
  exact hk'

/-- The rest of the table after a round. -/
def NodesKept (log : List WalkObs) (l l' : List PtNode) : Prop :=
  List.Forall₂ (NodeKept log) l l'

theorem NodesKept.mono {l l' : List PtNode} (h : NodesKept log l l')
    (hlog : ∀ x ∈ log, x ∈ log') : NodesKept log' l l' :=
  h.imp fun _ _ hn => hn.mono hlog

/-- A round of a walk: the entries of the family are visited up to the one at which it
    pauses. -/
theorem dumpLoop_spec {i : ℕ} {rest rest' : List PtNode} {paused : Option Nlri.PtEntry}
    (hwf : ∀ n ∈ rest, AdjoutWf n.adjout)
    (h : dumpLoop ctx q upcall i rest = (rest', log, paused)) :
    ∃ l r l', rest = l ++ r ∧ NodesKept log l l' ∧
      callsOf ctx.addr log = (l.filter (aidOk ctx.aid)).flatMap (callsFor q) ∧
      (paused = none ∧ r = [] ∧ rest' = l' ∨
        ∃ n r', r = n :: r' ∧ paused = some n.pt ∧
          rest' = l' ++ { n with refcnt := n.refcnt + 1 } :: r') := by
  induction rest generalizing i rest' log paused with
  | nil =>
    cases h
    exact ⟨[], [], [], rfl, .nil, rfl, Or.inl ⟨rfl, rfl, rfl⟩⟩
  | cons n rest ih =>
    have hrest : ∀ n ∈ rest, AdjoutWf n.adjout := fun m hm => hwf m (List.mem_cons_of_mem _ hm)
    rw [dumpLoop] at h
    split_ifs at h with haid hpause
    -- an entry of another address family is passed over
    · rcases hd : dumpLoop ctx q upcall i rest with ⟨next, log₁, paused₁⟩
      rw [hd] at h
      cases h
      obtain ⟨l, r, l', rfl, hk, hcalls, hend⟩ := ih hrest hd
      refine ⟨n :: l, r, n :: l', rfl, .cons (NodeKept.refl n) hk, ?_, ?_⟩
      · rw [List.filter_cons_of_neg (by simpa using haid)]
        exact hcalls
      · rcases hend with ⟨hp, hr, rfl⟩ | ⟨m, r', hr, hp, rfl⟩
        · exact Or.inl ⟨hp, hr, rfl⟩
        · exact Or.inr ⟨m, r', hr, hp, rfl⟩
    -- `count` is reached: the walk pauses at this entry
    · cases h
      exact ⟨[], n :: rest, [], rfl, .nil, rfl, Or.inr ⟨n, rest, rfl, rfl, rfl⟩⟩
    -- the entry is visited, and the walk goes on
    · rcases hv : visit ctx.addr q upcall n with ⟨n₁, log₁⟩
      rcases hd : dumpLoop ctx q upcall (i + 1) rest with ⟨next, log₂, paused₂⟩
      rw [hv, hd] at h
      cases h
      obtain ⟨l, r, l', rfl, hk, hcalls, hend⟩ := ih hrest hd
      obtain ⟨hkn, hcalls'⟩ := @visit_spec ctx.addr q upcall n
        (hwf n List.mem_cons_self)
      rw [hv] at hkn hcalls'
      refine ⟨n :: l, r, n₁ :: l', rfl, .cons (hkn.mono fun x hx => List.mem_append_left _ hx)
        (hk.mono fun x hx => List.mem_append_right _ hx), ?_, ?_⟩
      · rw [List.filter_cons_of_pos (by simpa using haid), List.flatMap_cons, callsOf_append,
          hcalls, hcalls']
      · rcases hend with ⟨hp, hr, rfl⟩ | ⟨m, r', hr, hp, rfl⟩
        · exact Or.inl ⟨hp, hr, rfl⟩
        · exact Or.inr ⟨m, r', hr, hp, rfl⟩

theorem NodesKept.keys {l l' : List PtNode} (h : NodesKept log l l') :
    l'.map (·.pt) = l.map (·.pt) := by
  induction h with
  | nil => rfl
  | cons hn _ ih => rw [List.map_cons, List.map_cons, hn.pt, ih]

/-- Where an entry of the table afterwards comes from. -/
theorem NodesKept.exists_left {l l' : List PtNode} (h : NodesKept log l l') (hn : n' ∈ l') :
    ∃ n ∈ l, NodeKept log n n' := by
  induction h with
  | nil => cases hn
  | cons hk _ ih =>
    rcases List.mem_cons.mp hn with rfl | hn
    · exact ⟨_, List.mem_cons_self, hk⟩
    · obtain ⟨m, hm, hk'⟩ := ih hn
      exact ⟨m, List.mem_cons_of_mem _ hm, hk'⟩

theorem NodesKept.exists_right {l l' : List PtNode} (h : NodesKept log l l') (hn : n ∈ l) :
    ∃ n' ∈ l', NodeKept log n n' := by
  induction h with
  | nil => cases hn
  | cons hk _ ih =>
    rcases List.mem_cons.mp hn with rfl | hn
    · exact ⟨_, List.mem_cons_self, hk⟩
    · obtain ⟨m, hm, hk'⟩ := ih hn
      exact ⟨m, List.mem_cons_of_mem _ hm, hk'⟩

/-! ## The state -/

variable {s s' s₁ : AdjoutWalks} {t t' : List PtNode} {d : List WalkContext}

/-- The references that contexts of a list hold of an entry. -/
def cursorsOf (d : List WalkContext) (k : Nlri.PtEntry) : ℕ := d.countP fun c => c.pt = some k

/-- The table is sorted, its arrays are in order, and every entry at which a context is paused
    is in the table and referenced by that context. -/
structure WalkInv (s : AdjoutWalks) : Prop where
  sorted : (s.table.map (·.pt)).Pairwise fun a b => ptPrefixCmp a b = .lt
  ok : ∀ n ∈ s.table, n.pt.Ok
  wf : ∀ n ∈ s.table, AdjoutWf n.adjout
  bids : ∀ n ∈ s.table, ∀ p ∈ n.adjout, ∀ q ∈ p.peermap, q ∈ s.bids
  addrs : (s.dumps.map (·.addr)).Nodup
  held : ∀ c ∈ s.dumps, ∀ k ∈ c.pt, ∃ n ∈ s.table, n.pt = k
  refs : ∀ n ∈ s.table, s.cursors n.pt ≤ n.refcnt

theorem WalkInv.init : WalkInv {} where
  sorted := List.Pairwise.nil
  ok := by simp
  wf := by simp
  bids := by simp
  addrs := List.nodup_nil
  held := by simp
  refs := by simp

theorem sorted_ne {a b : PtNode} (hok : ∀ n ∈ t, n.pt.Ok) (ha : a ∈ t)
    (h : ptPrefixCmp a.pt b.pt = .lt) : a.pt ≠ b.pt := by
  intro heq
  rw [← heq, cmp_self (hok a ha)] at h
  cases h

theorem ptSplit_spec {pre rest : List PtNode} (h : ptSplit k t = some (pre, n, rest)) :
    t = pre ++ n :: rest ∧ n.pt = k := by
  unfold ptSplit at h
  split at h
  · cases h
  · next m rest' hdrop =>
    cases h
    refine ⟨?_, ?_⟩
    · rw [← hdrop, List.takeWhile_append_dropWhile]
    · have := List.head_dropWhile_not (fun n : PtNode => decide (n.pt ≠ k)) (l := t)
        (by rw [hdrop]; simp)
      simp only [hdrop, List.head_cons] at this
      simpa using this

/-- `pt_unref`: the entry stays with one reference less, or it goes with all entries of
    peers. -/
theorem unref_spec {rest rest' : List PtNode} (h : n.unref rest = some (rest', log)) :
    n.refcnt = 1 ∧ rest' = rest ∧ log = lostWith n ∨
      1 < n.refcnt ∧ rest' = { n with refcnt := n.refcnt - 1 } :: rest ∧ log = [] := by
  unfold PtNode.unref at h
  split_ifs at h with hzero hone
  · cases h
    exact Or.inl ⟨hone, rfl, rfl⟩
  · cases h
    exact Or.inr ⟨by omega, rfl, rfl⟩

/-- An entry of the table loses a reference that no context holds. -/
theorem WalkInv.unref (hi : WalkInv s) {pre rest rest' : List PtNode}
    (ht : s.table = pre ++ n :: rest) (h : n.unref rest = some (rest', log))
    (haddrs : (d.map (·.addr)).Nodup) (hheld : ∀ c ∈ d, ∀ k ∈ c.pt, ∃ n ∈ s.table, n.pt = k)
    (hcur : ∀ k, cursorsOf d k ≤ s.cursors k) (hn : cursorsOf d n.pt < n.refcnt) :
    WalkInv { s with table := pre ++ rest', dumps := d } := by
  have hmem : n ∈ s.table := by
    rw [ht]
    simp
  -- what is known of the entries that are left
  have hleft : ∀ m ∈ pre ++ rest', m ∈ s.table ∨ 1 < n.refcnt ∧
      m = { n with refcnt := n.refcnt - 1 } := by
    intro m hm
    rw [ht]
    rcases unref_spec h with ⟨-, rfl, -⟩ | ⟨hone, rfl, -⟩
    · left
      rcases List.mem_append.mp hm with hm | hm
      · exact List.mem_append_left _ hm
      · exact List.mem_append_right _ (List.mem_cons_of_mem _ hm)
    · rcases List.mem_append.mp hm with hm | hm
      · exact Or.inl (List.mem_append_left _ hm)
      · rcases List.mem_cons.mp hm with rfl | hm
        · exact Or.inr ⟨hone, rfl⟩
        · exact Or.inl (List.mem_append_right _ (List.mem_cons_of_mem _ hm))
  constructor
  -- the keys are those of before, or all but one
  · refine hi.sorted.sublist ?_
    rw [ht]
    rcases unref_spec h with ⟨-, rfl, -⟩ | ⟨-, rfl, -⟩
    · exact ((List.sublist_cons_self _ _).append_left _).map _
    · simp
  · intro m hm
    rcases hleft m hm with hm | ⟨-, rfl⟩
    · exact hi.ok m hm
    · exact hi.ok n hmem
  · intro m hm
    rcases hleft m hm with hm | ⟨-, rfl⟩
    · exact hi.wf m hm
    · exact hi.wf n hmem
  · intro m hm
    rcases hleft m hm with hm | ⟨-, rfl⟩
    · exact hi.bids m hm
    · exact hi.bids n hmem
  · exact haddrs
  -- a context keeps a reference, so the entry it is paused at is not the one that goes
  · intro c hc k hk
    obtain ⟨m, hm, rfl⟩ := hheld c hc k hk
    have hpos : 0 < cursorsOf d m.pt := by
      refine List.countP_pos_iff.mpr ⟨c, hc, ?_⟩
      rw [decide_eq_true_eq]
      exact hk
    rw [ht] at hm
    rcases unref_spec h with ⟨hone, rfl, -⟩ | ⟨-, rfl, -⟩
    · rcases List.mem_append.mp hm with hm | hm
      · exact ⟨m, List.mem_append_left _ hm, rfl⟩
      · rcases List.mem_cons.mp hm with rfl | hm
        · omega
        · exact ⟨m, List.mem_append_right _ hm, rfl⟩
    · rcases List.mem_append.mp hm with hm | hm
      · exact ⟨m, List.mem_append_left _ hm, rfl⟩
      · rcases List.mem_cons.mp hm with rfl | hm
        · exact ⟨_, List.mem_append_right _ List.mem_cons_self, rfl⟩
        · exact ⟨m, List.mem_append_right _ (List.mem_cons_of_mem _ hm), rfl⟩
  · intro m hm
    show cursorsOf d m.pt ≤ m.refcnt
    rcases hleft m hm with hm | ⟨hone, rfl⟩
    · exact (hcur m.pt).trans (hi.refs m hm)
    -- one reference less, but `n` had one more than its contexts
    · show cursorsOf d n.pt ≤ n.refcnt - 1
      omega

/-- Part of the table changes as in a round. -/
theorem WalkInv.nodes (hi : WalkInv s) {pre l l' r : List PtNode}
    (ht : s.table = pre ++ (l ++ r)) (hk : NodesKept log l l') :
    WalkInv { s with table := pre ++ (l' ++ r) } := by
  -- every entry comes from one with the same key
  have hback : ∀ m ∈ pre ++ (l' ++ r), ∃ m₀ ∈ s.table, NodeKept log m₀ m := by
    intro m hm
    rw [ht]
    rcases List.mem_append.mp hm with hm | hm
    · exact ⟨m, List.mem_append_left _ hm, NodeKept.refl m⟩
    · rcases List.mem_append.mp hm with hm | hm
      · obtain ⟨m₀, hm₀, hkept⟩ := hk.exists_left hm
        exact ⟨m₀, List.mem_append_right _ (List.mem_append_left _ hm₀), hkept⟩
      · exact ⟨m, List.mem_append_right _ (List.mem_append_right _ hm), NodeKept.refl m⟩
  -- no key is added and none is lost
  have hkeys : (pre ++ (l' ++ r)).map (·.pt) = s.table.map (·.pt) := by
    rw [ht]
    simp only [List.map_append, hk.keys]
  constructor
  · show ((pre ++ (l' ++ r)).map (·.pt)).Pairwise _
    rw [hkeys]
    exact hi.sorted
  · intro m hm
    obtain ⟨m₀, hm₀, hkept⟩ := hback m hm
    rw [hkept.pt]
    exact hi.ok m₀ hm₀
  · intro m hm
    obtain ⟨m₀, hm₀, hkept⟩ := hback m hm
    exact hkept.wf (hi.wf m₀ hm₀)
  · intro m hm p hp q hq
    obtain ⟨m₀, hm₀, hkept⟩ := hback m hm
    obtain ⟨p₀, hp₀, hq₀⟩ := hkept.peers p hp q hq
    exact hi.bids m₀ hm₀ p₀ hp₀ q hq₀
  · exact hi.addrs
  · intro c hc k hck
    obtain ⟨m, hm, rfl⟩ := hi.held c hc k hck
    have : m.pt ∈ (pre ++ (l' ++ r)).map (·.pt) := by
      rw [hkeys]
      exact List.mem_map_of_mem hm
    obtain ⟨m', hm', hpt⟩ := List.mem_map.mp this
    exact ⟨m', hm', hpt⟩
  · intro m hm
    obtain ⟨m₀, hm₀, hkept⟩ := hback m hm
    rw [hkept.pt]
    exact (hi.refs m₀ hm₀).trans hkept.refcnt

/-- A context pauses at an entry of the table. -/
theorem WalkInv.pauseAt (hi : WalkInv s) {pre rest : List PtNode}
    (ht : s.table = pre ++ n :: rest) (haddrs : (d.map (·.addr)).Nodup)
    (hheld : ∀ c ∈ d, ∀ k ∈ c.pt, k = n.pt ∨ ∃ n ∈ s.table, n.pt = k)
    (hcur : ∀ k, cursorsOf d k ≤ s.cursors k + if n.pt = k then 1 else 0) :
    WalkInv { s with
      table := pre ++ { n with refcnt := n.refcnt + 1 } :: rest
      dumps := d } := by
  have hkept : NodesKept [] [n] [{ n with refcnt := n.refcnt + 1 }] :=
    .cons ⟨rfl, Nat.le_succ _, fun h => h, fun _ _ _ h => Or.inl h,
      fun p hp _ hq => ⟨p, hp, hq⟩⟩ .nil
  have hi' : WalkInv { s with table := pre ++ ([{ n with refcnt := n.refcnt + 1 }] ++ rest) } :=
    hi.nodes (by rw [ht]; rfl) hkept
  refine ⟨hi'.sorted, hi'.ok, hi'.wf, hi'.bids, haddrs, fun c hc k hk => ?_, fun m hm => ?_⟩
  -- the context that pauses is at the new reference, the others are where they were
  · rcases hheld c hc k hk with rfl | ⟨m, hm, rfl⟩
    · exact ⟨_, List.mem_append_right _ List.mem_cons_self, rfl⟩
    · rw [ht] at hm
      rcases List.mem_append.mp hm with hm | hm
      · exact ⟨m, List.mem_append_left _ hm, rfl⟩
      · rcases List.mem_cons.mp hm with rfl | hm
        · exact ⟨_, List.mem_append_right _ List.mem_cons_self, rfl⟩
        · exact ⟨m, List.mem_append_right _ (List.mem_cons_of_mem _ hm), rfl⟩
  · show cursorsOf d m.pt ≤ m.refcnt
    have hle := hcur m.pt
    have hn : s.cursors n.pt ≤ n.refcnt := hi.refs n (by rw [ht]; simp)
    -- only one entry has this key
    have hsorted := hi.sorted
    rw [ht, List.map_append, List.map_cons, List.pairwise_append, List.pairwise_cons] at hsorted
    rcases List.mem_append.mp hm with hm | hm
    · have hmt : m ∈ s.table := by rw [ht]; exact List.mem_append_left _ hm
      have hne : n.pt ≠ m.pt := by
        have hlt := hsorted.2.2 m.pt (List.mem_map_of_mem hm) n.pt List.mem_cons_self
        exact (sorted_ne hi.ok hmt hlt).symm
      rw [if_neg hne] at hle
      exact hle.trans (hi.refs m hmt)
    · rcases List.mem_cons.mp hm with rfl | hm
      · dsimp only at hle ⊢
        rw [if_pos rfl] at hle
        omega
      · have hmt : m ∈ s.table := by
          rw [ht]
          exact List.mem_append_right _ (List.mem_cons_of_mem _ hm)
        have hnt : n ∈ s.table := by
          rw [ht]
          simp
        have hne : n.pt ≠ m.pt :=
          sorted_ne hi.ok hnt (hsorted.2.1.1 m.pt (List.mem_map_of_mem hm))
        rw [if_neg hne] at hle
        exact hle.trans (hi.refs m hmt)

/-! ## Contexts -/

/-- A context and the others, which have other addresses. -/
theorem context_split (hnd : (d.map (·.addr)).Nodup) (hc : ctx ∈ d) :
    ∃ l r, d = l ++ ctx :: r ∧ (d.filter fun c => c.addr ≠ ctx.addr) = l ++ r ∧
      ∀ x, (d.map fun c => if c.addr = ctx.addr then { c with pt := x } else c) =
        l ++ { ctx with pt := x } :: r := by
  obtain ⟨l, r, rfl⟩ := List.append_of_mem hc
  refine ⟨l, r, rfl, ?_, ?_⟩
  all_goals
    rw [List.map_append, List.map_cons, List.nodup_append', List.nodup_cons] at hnd
    have hl : ∀ c ∈ l, c.addr ≠ ctx.addr := fun c hc haddr =>
      hnd.2.2 (List.mem_map_of_mem hc) (haddr ▸ List.mem_cons_self)
    have hr : ∀ c ∈ r, c.addr ≠ ctx.addr := fun c hc haddr =>
      hnd.2.1.1 (haddr ▸ List.mem_map_of_mem hc)
  · rw [List.filter_append, List.filter_cons_of_neg (by simp),
      List.filter_eq_self.mpr fun c hc => by simpa using hl c hc,
      List.filter_eq_self.mpr fun c hc => by simpa using hr c hc]
  · intro x
    rw [List.map_append, List.map_cons, if_pos rfl]
    congr 1
    · exact (List.map_congr_left fun c hc => if_neg (hl c hc)).trans (List.map_id _)
    · congr 1
      exact (List.map_congr_left fun c hc => if_neg (hr c hc)).trans (List.map_id _)

theorem cursorsOf_append_cons {l r : List WalkContext} :
    cursorsOf (l ++ ctx :: r) k = cursorsOf (l ++ r) k + if ctx.pt = some k then 1 else 0 := by
  unfold cursorsOf
  rw [List.countP_append, List.countP_cons, List.countP_append]
  simp only [decide_eq_true_eq]
  omega

/-- Contexts end or hold less. -/
theorem WalkInv.contexts (hi : WalkInv s) (haddrs : (d.map (·.addr)).Nodup)
    (hheld : ∀ c ∈ d, ∀ k ∈ c.pt, ∃ n ∈ s.table, n.pt = k)
    (hcur : ∀ k, cursorsOf d k ≤ s.cursors k) : WalkInv { s with dumps := d } :=
  ⟨hi.sorted, hi.ok, hi.wf, hi.bids, haddrs, hheld, fun n hn => (hcur n.pt).trans (hi.refs n hn)⟩

theorem WalkInv.dropContext (hi : WalkInv s) (addr : Ptr) : WalkInv (s.dropContext addr) := by
  refine hi.contexts (hi.addrs.sublist (List.filter_sublist.map _))
    (fun c hc => hi.held c (List.mem_of_mem_filter hc)) fun k => ?_
  exact List.filter_sublist.countP_le

/-- What `adjoutPrefixDumpR` is made of. -/
theorem dumpR_cases (h : s.adjoutPrefixDumpR upcall addr = some (s', log)) :
    ∃ ctx ∈ s.dumps, ctx.addr = addr ∧
      (ctx.bid = none ∧ s' = s.dropContext addr ∧ log = [.done addr] ∨
        ∃ q pre rest lost rest' log' paused, ctx.bid = some q ∧
          s.roundStart ctx = some (pre, rest, lost) ∧
          dumpLoop ctx q upcall 0 rest = (rest', log', paused) ∧
          ((∃ k, paused = some k ∧ s' = { s with table := pre ++ rest' }.setPt addr (some k) ∧
              log = lost ++ log') ∨
            paused = none ∧ s' = { s with table := pre ++ rest' }.dropContext addr ∧
              log = lost ++ log' ++ [.done addr])) := by
  unfold AdjoutWalks.adjoutPrefixDumpR at h
  obtain ⟨ctx, hctx, h⟩ := Option.bind_eq_some_iff.mp h
  refine ⟨ctx, List.mem_of_find?_eq_some hctx, by simpa using List.find?_some hctx, ?_⟩
  cases hbid : ctx.bid with
  | none =>
    rw [hbid] at h
    cases h
    exact Or.inl ⟨rfl, rfl, rfl⟩
  | some q =>
    rw [hbid] at h
    obtain ⟨⟨pre, rest, lost⟩, hstart, h⟩ := Option.bind_eq_some_iff.mp h
    rcases hloop : dumpLoop ctx q upcall 0 rest with ⟨rest', log', paused⟩
    dsimp only at h
    rw [hloop] at h
    refine Or.inr ⟨q, pre, rest, lost, rest', log', paused, rfl, hstart, hloop, ?_⟩
    cases paused with
    | none =>
      cases h
      exact Or.inr ⟨rfl, rfl, rfl⟩
    | some k =>
      cases h
      exact Or.inl ⟨k, rfl, rfl, rfl⟩

/-- The start of a round: the whole table or, after a pause, the part of it from the entry of the
    context on, which may be freed. -/
theorem roundStart_spec {pre rest : List PtNode} (h : s.roundStart ctx = some (pre, rest, log)) :
    ctx.pt = none ∧ s.table = pre ++ rest ∧ log = [] ∧
        (∀ aid, ctx.aid = some aid → ∀ n ∈ pre, isBefore (ptFillFirst aid) n = true) ∧
        (ctx.aid = none → pre = []) ∨
      ∃ n rest₀, ctx.pt = some n.pt ∧ s.table = pre ++ n :: rest₀ ∧
        n.unref rest₀ = some (rest, log) := by
  unfold AdjoutWalks.roundStart at h
  cases hpt : ctx.pt with
  | none =>
    rw [hpt] at h
    cases h
    refine Or.inl ⟨rfl, ?_, rfl, fun aid haid n hn => ?_, fun haid => by rw [haid]; rfl⟩
    · unfold ptFirst
      cases ctx.aid with
      | none => rfl
      | some aid => exact List.takeWhile_append_dropWhile.symm
    · rw [haid] at hn
      exact List.mem_takeWhile_imp hn
  | some k =>
    rw [hpt] at h
    obtain ⟨⟨pre', n, rest₀⟩, hsplit, h⟩ := Option.bind_eq_some_iff.mp h
    obtain ⟨⟨rest₁, log₁⟩, hunref, h⟩ := Option.map_eq_some_iff.mp h
    cases h
    obtain ⟨ht, rfl⟩ := ptSplit_spec hsplit
    exact Or.inr ⟨n, rest₀, rfl, ht, hunref⟩

/-- The state at the start of a round, when the context holds no entry any more. -/
theorem WalkInv.roundStart (hi : WalkInv s) {l r : List WalkContext} (hd : s.dumps = l ++ ctx :: r)
    {pre rest : List PtNode} (h : s.roundStart ctx = some (pre, rest, log)) :
    WalkInv ⟨pre ++ rest, s.bids, l ++ { ctx with pt := none } :: r⟩ := by
  have haddrs : ((l ++ { ctx with pt := none } :: r).map (·.addr)).Nodup := by
    have := hi.addrs
    rw [hd] at this
    simpa using this
  have hheld : ∀ c ∈ l ++ { ctx with pt := none } :: r, ∀ k ∈ c.pt, ∃ n ∈ s.table, n.pt = k := by
    intro c hcm k hk
    refine hi.held c ?_ k hk
    rw [hd]
    rcases List.mem_append.mp hcm with hcm | hcm
    · exact List.mem_append_left _ hcm
    · rcases List.mem_cons.mp hcm with rfl | hcm
      · cases hk
      · exact List.mem_append_right _ (List.mem_cons_of_mem _ hcm)
  have hcur : ∀ k, cursorsOf (l ++ { ctx with pt := none } :: r) k +
      (if ctx.pt = some k then 1 else 0) = s.cursors k := by
    intro k
    show _ = cursorsOf s.dumps k
    rw [hd, cursorsOf_append_cons, cursorsOf_append_cons, if_neg (by simp)]
    omega
  rcases roundStart_spec h with ⟨-, ht, -⟩ | ⟨n, rest₀, hpt, ht, hunref⟩
  · have hsame := hi.contexts haddrs hheld fun k => by have := hcur k; omega
    rwa [ht] at hsame
  · refine hi.unref ht hunref haddrs hheld (fun k => by have := hcur k; omega) ?_
    have hn := hi.refs n (by rw [ht]; simp)
    have := hcur n.pt
    rw [if_pos hpt] at this
    omega

/-- `adjout_prefix_dump_r` -/
theorem WalkInv.adjoutPrefixDumpR (hi : WalkInv s)
    (h : s.adjoutPrefixDumpR upcall addr = some (s', log)) : WalkInv s' := by
  obtain ⟨ctx, hc, rfl, ⟨-, rfl, -⟩ | ⟨q, pre, rest, lost, rest', log', paused, -, hstart, hloop,
    hend⟩⟩ := dumpR_cases h
  · exact hi.dropContext _
  obtain ⟨l, r, hd, hfilter, hset⟩ := context_split hi.addrs hc
  have hi₀ := hi.roundStart hd hstart
  obtain ⟨l₁, r₁, l₁', rfl, hk, -, hpause⟩ := dumpLoop_spec
    (fun n hn => hi₀.wf n (List.mem_append_right _ hn)) hloop
  have hi₁ := hi₀.nodes rfl hk
  -- the other contexts hold what they held
  have hsub : (l ++ r).Sublist (l ++ { ctx with pt := none } :: r) :=
    (List.sublist_cons_self _ _).append_left _
  rcases hpause with ⟨rfl, rfl, rfl⟩ | ⟨n, r', rfl, rfl, rfl⟩
  -- the round has reached the end: the context goes
  · obtain ⟨k, hk, -⟩ | ⟨-, rfl, -⟩ := hend
    · cases hk
    · unfold AdjoutWalks.dropContext
      rw [hfilter]
      have hi₂ := hi₁.contexts (hi₁.addrs.sublist (hsub.map _))
        (fun c hc => hi₁.held c (hsub.subset hc)) fun k => hsub.countP_le
      rwa [List.append_nil] at hi₂
  -- the round pauses: the context is set to the entry and takes a reference
  · obtain ⟨k, hk, rfl, -⟩ | ⟨hk, -⟩ := hend
    · cases hk
      unfold AdjoutWalks.setPt
      rw [hset]
      have ht : pre ++ (l₁' ++ n :: r') = (pre ++ l₁') ++ n :: r' := by simp
      have hi₂ := hi₁.pauseAt (d := l ++ { ctx with pt := some n.pt } :: r) ht
        (by simpa using hi₁.addrs) (fun c hc k hk => ?_) (fun k => ?_)
      · rwa [List.append_assoc] at hi₂
      · rcases List.mem_append.mp hc with hc | hc
        · exact Or.inr (hi₁.held c (List.mem_append_left _ hc) k hk)
        · rcases List.mem_cons.mp hc with rfl | hc
          · exact Or.inl (Option.some.inj hk).symm
          · exact Or.inr (hi₁.held c
              (List.mem_append_right _ (List.mem_cons_of_mem _ hc)) k hk)
      · show _ ≤ cursorsOf (l ++ { ctx with pt := none } :: r) k + _
        rw [cursorsOf_append_cons, cursorsOf_append_cons]
        simp
    · cases hk

/-- A new dump runs at once without a count, and is queued otherwise. -/
theorem dumpNew_cases {peer : PeerId} {aid : Option Aid} {count arg : ℕ}
    (h : s.adjoutPrefixDumpNew upcall addr peer aid count arg = some (s', log)) :
    addr ∉ s.dumps.map (·.addr) ∧ ∃ ctx : WalkContext,
      ctx = ⟨addr, if peer ∈ s.bids then some peer else none, aid, count, arg, none⟩ ∧
      (count = 0 ∧
          { s with dumps := ctx :: s.dumps }.adjoutPrefixDumpR upcall addr = some (s', log) ∨
        count ≠ 0 ∧ s' = { s with dumps := ctx :: s.dumps } ∧ log = []) := by
  unfold AdjoutWalks.adjoutPrefixDumpNew at h
  by_cases hfresh : addr ∈ s.dumps.map (·.addr)
  · rw [if_pos hfresh] at h
    cases h
  · rw [if_neg hfresh] at h
    refine ⟨hfresh, _, rfl, ?_⟩
    dsimp only at h
    by_cases hcount : count = 0
    · rw [if_pos hcount] at h
      exact Or.inl ⟨hcount, h⟩
    · rw [if_neg hcount] at h
      cases h
      exact Or.inr ⟨hcount, rfl, rfl⟩

/-- A context that holds no entry is created. -/
theorem WalkInv.insert (hi : WalkInv s) (hfresh : ctx.addr ∉ s.dumps.map (·.addr))
    (hpt : ctx.pt = none) : WalkInv { s with dumps := ctx :: s.dumps } := by
  refine hi.contexts (List.nodup_cons.mpr ⟨hfresh, hi.addrs⟩) (fun c hc k hk => ?_) fun k => ?_
  · rcases List.mem_cons.mp hc with rfl | hc
    · rw [hpt] at hk
      cases hk
    · exact hi.held c hc k hk
  · show cursorsOf ([] ++ ctx :: s.dumps) k ≤ cursorsOf s.dumps k
    rw [cursorsOf_append_cons, hpt]
    simp

theorem WalkInv.adjoutPrefixDumpNew (hi : WalkInv s) {peer : PeerId} {aid : Option Aid}
    {count arg : ℕ}
    (h : s.adjoutPrefixDumpNew upcall addr peer aid count arg = some (s', log)) : WalkInv s' := by
  obtain ⟨hfresh, ctx, rfl, ⟨-, h⟩ | ⟨-, rfl, -⟩⟩ := dumpNew_cases h
  · exact (hi.insert hfresh rfl).adjoutPrefixDumpR h
  · exact hi.insert hfresh rfl

theorem ptUnref_spec (h : ptUnref k t = some (t', log)) :
    ∃ pre n rest rest', t = pre ++ n :: rest ∧ n.pt = k ∧ n.unref rest = some (rest', log) ∧
      t' = pre ++ rest' := by
  unfold ptUnref at h
  obtain ⟨⟨pre, n, rest⟩, hsplit, h⟩ := Option.bind_eq_some_iff.mp h
  obtain ⟨⟨rest', log'⟩, hunref, h⟩ := Option.map_eq_some_iff.mp h
  cases h
  obtain ⟨ht, hk⟩ := ptSplit_spec hsplit
  exact ⟨pre, n, rest, rest', ht, hk, hunref, rfl⟩

/-- Freeing a dump keeps the invariant of the walks. -/
theorem WalkInv.ribDumpFree (hi : WalkInv s) (hc : ctx ∈ s.dumps)
    (h : s.ribDumpFree ctx = some (s', log)) : WalkInv s' := by
  unfold AdjoutWalks.ribDumpFree at h
  cases hpt : ctx.pt with
  | none =>
    rw [hpt] at h
    cases h
    exact hi.dropContext _
  | some k =>
    rw [hpt] at h
    obtain ⟨⟨t', log'⟩, hpu, h⟩ := Option.map_eq_some_iff.mp h
    cases h
    obtain ⟨pre, n, rest, rest', ht, rfl, hunref, rfl⟩ := ptUnref_spec hpu
    obtain ⟨l, r, hd, hfilter, -⟩ := context_split hi.addrs hc
    unfold AdjoutWalks.dropContext
    rw [hfilter]
    have hsub : (l ++ r).Sublist s.dumps := by
      rw [hd]
      exact (List.sublist_cons_self _ _).append_left _
    refine hi.unref ht hunref (hi.addrs.sublist (hsub.map _))
      (fun c hc => hi.held c (hsub.subset hc)) (fun k => hsub.countP_le) ?_
    have hn : cursorsOf s.dumps n.pt ≤ n.refcnt := hi.refs n (by rw [ht]; simp)
    rw [hd, cursorsOf_append_cons, if_pos hpt] at hn
    omega

theorem ribDumpFree_dumps (h : s.ribDumpFree ctx = some (s', log)) :
    s'.dumps = s.dumps.filter fun c => c.addr ≠ ctx.addr := by
  unfold AdjoutWalks.ribDumpFree at h
  split at h
  · cases h
    rfl
  · obtain ⟨_, -, h⟩ := Option.map_eq_some_iff.mp h
    cases h
    rfl

theorem WalkInv.freeAll {cs : List WalkContext} (hi : WalkInv s) (hcs : ∀ c ∈ cs, c ∈ s.dumps)
    (hnd : (cs.map (·.addr)).Nodup) (h : AdjoutWalks.freeAll cs s = some (s', log)) :
    WalkInv s' := by
  induction cs generalizing s log with
  | nil =>
    cases h
    exact hi
  | cons c cs ih =>
    obtain ⟨⟨s₁, log₁⟩, h₁, h⟩ := Option.bind_eq_some_iff.mp h
    obtain ⟨⟨s₂, log₂⟩, h₂, h⟩ := Option.map_eq_some_iff.mp h
    cases h
    rw [List.map_cons, List.nodup_cons] at hnd
    refine ih (hi.ribDumpFree (hcs c List.mem_cons_self) h₁) (fun d hd => ?_) hnd.2 h₂
    rw [ribDumpFree_dumps h₁, List.mem_filter]
    refine ⟨hcs d (List.mem_cons_of_mem _ hd), ?_⟩
    have : d.addr ≠ c.addr := fun heq => hnd.1 (heq ▸ List.mem_map_of_mem hd)
    simpa using this

/-- An entry of the table changes. -/
theorem WalkInv.modifyNode (hi : WalkInv s) {f : PtNode → PtNode} {bids : List PeerId}
    (hpt : ∀ n, (f n).pt = n.pt) (href : ∀ n, n.refcnt ≤ (f n).refcnt)
    (hwf : ∀ n, AdjoutWf n.adjout → AdjoutWf (f n).adjout) (hsub : ∀ q ∈ s.bids, q ∈ bids)
    (hbids : ∀ n, (∀ p ∈ n.adjout, ∀ q ∈ p.peermap, q ∈ bids) →
      ∀ p ∈ (f n).adjout, ∀ q ∈ p.peermap, q ∈ bids) :
    WalkInv ({ s with bids := bids }.modifyNode k f) := by
  -- `f` changes no key
  have hkeys : (s.table.map fun n => if n.pt = k then f n else n).map (·.pt) =
      s.table.map (·.pt) := by
    rw [List.map_map]
    apply List.map_congr_left
    intro n _
    dsimp only [Function.comp]
    split_ifs
    · exact hpt n
    · rfl
  constructor
  · show ((s.table.map fun n => if n.pt = k then f n else n).map (·.pt)).Pairwise _
    rw [hkeys]
    exact hi.sorted
  · intro m hm
    obtain ⟨n, hn, rfl⟩ := List.mem_map.mp hm
    split_ifs
    · rw [hpt]
      exact hi.ok n hn
    · exact hi.ok n hn
  · intro m hm
    obtain ⟨n, hn, rfl⟩ := List.mem_map.mp hm
    split_ifs
    · exact hwf n (hi.wf n hn)
    · exact hi.wf n hn
  · intro m hm
    obtain ⟨n, hn, rfl⟩ := List.mem_map.mp hm
    have hn' : ∀ p ∈ n.adjout, ∀ q ∈ p.peermap, q ∈ bids := fun p hp q hq =>
      hsub q (hi.bids n hn p hp q hq)
    split_ifs
    · exact hbids n hn'
    · exact hn'
  · exact hi.addrs
  -- so an entry that a context is paused at is still there
  · intro c hc k' hk
    obtain ⟨m, hm, rfl⟩ := hi.held c hc k' hk
    have : m.pt ∈ (s.table.map fun n => if n.pt = k then f n else n).map (·.pt) := by
      rw [hkeys]
      exact List.mem_map_of_mem hm
    obtain ⟨m', hm', hpt⟩ := List.mem_map.mp this
    exact ⟨m', hm', hpt⟩
  · intro m hm
    obtain ⟨n, hn, rfl⟩ := List.mem_map.mp hm
    have hle : cursorsOf s.dumps n.pt ≤ n.refcnt := hi.refs n hn
    show cursorsOf s.dumps _ ≤ _
    split_ifs
    · rw [hpt]
      exact hle.trans (href n)
    · exact hle

/-- `pt_add` -/
theorem WalkInv.ptGet (hi : WalkInv s) (hpt : pt.Ok) : WalkInv (s.ptGet pt) := by
  unfold AdjoutWalks.ptGet
  split_ifs with hany
  · exact hi
  · have hsplit := List.takeWhile_append_dropWhile
      (p := fun n : PtNode => decide (ptPrefixCmp n.pt pt = .lt)) (l := s.table)
    generalize hl : (s.table.takeWhile fun n => decide (ptPrefixCmp n.pt pt = .lt)) = l at hsplit
    generalize hr : (s.table.dropWhile fun n => decide (ptPrefixCmp n.pt pt = .lt)) = r at hsplit
    -- the new entry stands between `l` and `r`, nothing else changes
    have hmem : ∀ n ∈ l ++ { pt := pt } :: r, n = { pt := pt } ∨ n ∈ s.table := by
      intro n hn
      rw [← hsplit]
      rcases List.mem_append.mp hn with hn | hn
      · exact Or.inr (List.mem_append_left _ hn)
      · exact (List.mem_cons.mp hn).imp_right (List.mem_append_right _)
    have hsub : ∀ n ∈ s.table, n ∈ l ++ { pt := pt } :: r := by
      intro n hn
      rw [← hsplit] at hn
      rcases List.mem_append.mp hn with hn | hn
      · exact List.mem_append_left _ hn
      · exact List.mem_append_right _ (List.mem_cons_of_mem _ hn)
    -- the entries behind the new one are greater
    have hgt : ∀ n ∈ r, ptPrefixCmp pt n.pt = .lt := by
      intro n hn
      have hnt : n ∈ s.table := by
        rw [← hsplit]
        exact List.mem_append_right _ hn
      -- no entry has the key of the new one
      have hne : ptPrefixCmp pt n.pt ≠ .eq := by
        intro heq
        exact hany (List.any_eq_true.mpr ⟨n, hnt, by simpa using heq⟩)
      have hnlt : ptPrefixCmp n.pt pt ≠ .lt := by
        cases hr' : r with
        | nil =>
          rw [hr'] at hn
          cases hn
        -- the first entry of `r` is not smaller, and the rest is sorted behind it
        | cons m r' =>
          have hm : ptPrefixCmp m.pt pt ≠ .lt := by
            have := List.head_dropWhile_not
              (fun n : PtNode => decide (ptPrefixCmp n.pt pt = .lt)) (l := s.table)
              (by rw [hr, hr']; simp)
            simp only [hr, hr', List.head_cons] at this
            simpa using this
          rw [hr'] at hn
          rcases List.mem_cons.mp hn with rfl | hn
          · exact hm
          · intro hlt
            have hsorted := hi.sorted
            rw [← hsplit, hr', List.map_append, List.map_cons, List.pairwise_append,
              List.pairwise_cons] at hsorted
            have hmt : m ∈ s.table := by
              rw [← hsplit, hr']
              simp
            exact hm (lt_trans' (hi.ok m hmt) (hi.ok n hnt) hpt
              (hsorted.2.1.1 n.pt (List.mem_map_of_mem hn)) hlt)
      rw [cmp_swap (hi.ok n hnt) hpt] at hnlt
      cases hc : ptPrefixCmp pt n.pt with
      | lt => rfl
      | eq => exact absurd hc hne
      | gt =>
        rw [hc] at hnlt
        exact absurd rfl hnlt
    constructor
    -- the entries of `l` are smaller, by the choice of the place
    · show ((l ++ { pt := pt } :: r).map (·.pt)).Pairwise _
      have hsorted := hi.sorted
      rw [← hsplit, List.map_append, List.pairwise_append] at hsorted
      obtain ⟨hsl, hsr, hlr⟩ := hsorted
      have hlt : ∀ a ∈ l.map (·.pt), ptPrefixCmp a pt = .lt := by
        intro a ha
        obtain ⟨n, hn, rfl⟩ := List.mem_map.mp ha
        rw [← hl] at hn
        simpa using List.mem_takeWhile_imp hn
      rw [List.map_append, List.map_cons, List.pairwise_append, List.pairwise_cons]
      refine ⟨hsl, ⟨fun a ha => ?_, hsr⟩, fun a ha b hb => ?_⟩
      · obtain ⟨n, hn, rfl⟩ := List.mem_map.mp ha
        exact hgt n hn
      · rcases List.mem_cons.mp hb with rfl | hb
        · exact hlt a ha
        · exact hlr a ha b hb
    · intro n hn
      rcases hmem n hn with rfl | hn
      · exact hpt
      · exact hi.ok n hn
    · intro n hn
      rcases hmem n hn with rfl | hn
      · exact AdjoutWf.nil
      · exact hi.wf n hn
    · intro n hn
      rcases hmem n hn with rfl | hn
      · simp
      · exact hi.bids n hn
    · exact hi.addrs
    · intro c hc k hk
      obtain ⟨n, hn, hnk⟩ := hi.held c hc k hk
      exact ⟨n, hsub n hn, hnk⟩
    · intro n hn
      rcases hmem n hn with rfl | hn
      · -- no context is paused at an entry that was not there
        show cursorsOf s.dumps pt ≤ 0
        rw [Nat.le_zero]
        refine List.countP_eq_zero.mpr fun c hc hk => ?_
        obtain ⟨m, hm, hmk⟩ := hi.held c hc pt (by simpa using hk)
        refine hany (List.any_eq_true.mpr ⟨m, hm, ?_⟩)
        rw [hmk]
        simpa using cmp_self hpt
      · exact hi.refs n hn

/-- `pt_unref` of a reference that no context holds. -/
theorem WalkInv.unrefEvent (hi : WalkInv s) (h : s.unref k = some (s', log)) : WalkInv s' := by
  unfold AdjoutWalks.unref at h
  obtain ⟨m, hfind, h⟩ := Option.bind_eq_some_iff.mp h
  split_ifs at h with hcur
  obtain ⟨⟨t', log'⟩, hpu, h⟩ := Option.map_eq_some_iff.mp h
  cases h
  obtain ⟨pre, n, rest, rest', ht, rfl, hunref, rfl⟩ := ptUnref_spec hpu
  refine hi.unref ht hunref hi.addrs hi.held (fun k => Nat.le_refl _) ?_
  -- there is only one entry with this key
  have hmn : m.pt = n.pt := by simpa using List.find?_some hfind
  have hnd : (s.table.map (·.pt)).Nodup := by
    refine (hi.sorted.imp_of_mem fun {a b} ha _ hlt => ?_)
    obtain ⟨x, hx, rfl⟩ := List.mem_map.mp ha
    rintro rfl
    rw [cmp_self (hi.ok x hx)] at hlt
    cases hlt
  rw [← List.inj_on_of_nodup_map hnd (List.mem_of_find?_eq_some hfind) (by rw [ht]; simp) hmn]
  rw [hmn]
  exact hcur

section Arrays

variable {arr : List AdjoutPrefix} {i : ℕ} {attrs : AdjoutAttr} {p : AdjoutPrefix}

theorem peers_link (hp : p ∈ adjoutPrefixLink q attrs id arr) (hq : q' ∈ p.peermap) :
    q' = q ∨ ∃ p₀ ∈ arr, q' ∈ p₀.peermap := by
  unfold adjoutPrefixLink at hp
  split at hp
  · next i _ =>
    obtain ⟨j, hj, rfl⟩ := List.getElem_of_mem hp
    have hj' : j < arr.length := by simpa using hj
    rw [List.getElem_modify] at hq
    split at hq
    · exact (mem_bitmapSet.mp hq).imp_right fun hq => ⟨arr[j], List.getElem_mem hj', hq⟩
    · exact Or.inr ⟨arr[j], List.getElem_mem hj', hq⟩
  · obtain ⟨l, r, rfl, heq, -, -⟩ := adjoutPrefixAlloc_split ⟨id, some attrs, [q]⟩ arr
    rw [heq] at hp
    rcases List.mem_append.mp hp with hp | hp
    · exact Or.inr ⟨p, List.mem_append_left _ hp, hq⟩
    · rcases List.mem_cons.mp hp with rfl | hp
      · exact Or.inl (List.mem_singleton.mp hq)
      · exact Or.inr ⟨p, List.mem_append_right _ hp, hq⟩

theorem peers_update (hp : p ∈ AdjoutWalks.updateArray q attrs id arr) (hq : q' ∈ p.peermap) :
    q' = q ∨ ∃ p₀ ∈ arr, q' ∈ p₀.peermap := by
  unfold AdjoutWalks.updateArray at hp
  split at hp
  · exact peers_link hp hq
  · rcases peers_link hp hq with rfl | ⟨p₁, hp₁, hq₁⟩
    · exact Or.inl rfl
    · exact Or.inr (peers_unlink hp₁ hq₁)

theorem peers_withdraw (hp : p ∈ AdjoutWalks.withdrawArray q id arr) (hq : q' ∈ p.peermap) :
    ∃ p₀ ∈ arr, q' ∈ p₀.peermap := by
  unfold AdjoutWalks.withdrawArray at hp
  split at hp
  · exact ⟨p, hp, hq⟩
  · exact peers_unlink hp hq

end Arrays

/-- The entries that are added to the table are built by `pt_fill` or `pt_add_flow`. -/
def EventOk : WalkEvent → Prop
  | .ptGet pt => Nlri.Built pt
  | _ => True

/-- Every event keeps the invariant of the walks. -/
theorem WalkInv.step {e : WalkEvent} (hi : WalkInv s) (he : EventOk e)
    (h : walkEvent s e = some (s', log)) : WalkInv s' := by
  cases e with
  | ptGet pt =>
    cases h
    exact hi.ptGet (Nlri.Built.ok he)
  | ref pt =>
    cases h
    exact hi.modifyNode (fun _ => rfl) (fun _ => Nat.le_succ _) (fun _ h => h) (fun _ h => h)
      fun _ h => h
  | unref pt => exact hi.unrefEvent h
  | update pt q attrs id =>
    cases h
    refine hi.modifyNode (fun _ => rfl) (fun _ => Nat.le_refl _) (fun _ h => wf_update h)
      (fun q' hq' => mem_bitmapSet.mpr (Or.inr hq')) fun n hn p hp q' hq' => ?_
    rcases peers_update hp hq' with rfl | ⟨p₀, hp₀, hq₀⟩
    · exact mem_bitmapSet.mpr (Or.inl rfl)
    · exact hn p₀ hp₀ q' hq₀
  | withdraw pt q id =>
    cases h
    refine hi.modifyNode (fun _ => rfl) (fun _ => Nat.le_refl _) (fun _ h => wf_withdraw h)
      (fun _ h => h) fun n hn p hp q' hq' => ?_
    obtain ⟨p₀, hp₀, hq₀⟩ := peers_withdraw hp hq'
    exact hn p₀ hp₀ q' hq₀
  | collect pt =>
    cases h
    exact hi.modifyNode (fun _ => rfl) (fun _ => Nat.le_refl _) (fun _ h => h.collect)
      (fun _ h => h) fun n hn p hp => hn p (List.mem_of_mem_filter hp)
  | dumpNew upcall addr peer aid count arg => exact hi.adjoutPrefixDumpNew h
  | dumpR upcall addr => exact hi.adjoutPrefixDumpR h
  | terminate arg =>
    exact hi.freeAll (fun c hc => (List.mem_filter.mp hc).1)
      (hi.addrs.sublist (List.filter_sublist.map _)) h

theorem find_context (hnd : (d.map (·.addr)).Nodup) (hc : ctx ∈ d) :
    d.find? (fun c => c.addr = ctx.addr) = some ctx := by
  obtain ⟨l, r, rfl, -, -⟩ := context_split hnd hc
  rw [List.find?_eq_some_iff_append]
  refine ⟨by simp, l, r, rfl, fun c hcl => ?_⟩
  rw [List.map_append, List.map_cons, List.nodup_append'] at hnd
  have hne : c.addr ≠ ctx.addr := fun heq =>
    hnd.2.2 (List.mem_map_of_mem hcl) (heq ▸ List.mem_cons_self)
  simpa using hne

end Bgpd.Rde.AdjoutWalk
