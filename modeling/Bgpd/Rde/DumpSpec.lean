import Bgpd.Lib.Run
import Bgpd.Rde.Dump

/-!
# Paused Walks

A context that pauses at an entry holds the lock of this entry. The lock is one bit, so two
contexts must not pause at the same entry: `rib_dump_r` sees to that, but `rib_dump_subtree`
locks the entry that starts the subtree even if it is locked already.

## Main results

- `Keeps`: what changes of paths leave alone
- `dumpWalk_spec`: the entry at which a walk pauses was not locked before
- `paused_entry_locked`: paused contexts hold the locks of their entries
-/

namespace Bgpd.Rde.Dump

open Bgpd.Lib

variable {env : DumpEnv} {t t' : RibTree} {p q : Ptr} {id : ℕ} {s s' s₁ : RibDumps}

/-! ## Trees -/

/-- No two entries have the same address. -/
def TreeOk (t : RibTree) : Prop := (t.map (·.ptr)).Nodup

/-- The entry at an address is in the tree and locked. -/
def TreeHeld (t : RibTree) (p : Ptr) : Prop := ∃ e ∈ t, e.ptr = p ∧ e.lock = true

theorem treeGet_eq_some (h : treeGet t p = some e) : e ∈ t ∧ e.ptr = p :=
  ⟨List.mem_of_find?_eq_some h, by simpa using List.find?_some h⟩

theorem TreeOk.eq_of_ptr {e e' : DumpEntry} (h : TreeOk t) (he : e ∈ t) (he' : e' ∈ t)
    (hptr : e.ptr = e'.ptr) : e = e' :=
  List.inj_on_of_nodup_map h he he' hptr

theorem map_ptr_treeModify {f : DumpEntry → DumpEntry} (hf : ∀ e, (f e).ptr = e.ptr) :
    (treeModify t p f).map (·.ptr) = t.map (·.ptr) := by
  unfold treeModify
  rw [List.map_map]
  apply List.map_congr_left
  intro e _
  dsimp only [Function.comp]
  split
  · exact hf e
  · rfl

theorem TreeOk.modify {f : DumpEntry → DumpEntry} (h : TreeOk t) (hf : ∀ e, (f e).ptr = e.ptr) :
    TreeOk (treeModify t p f) := by
  unfold TreeOk
  rwa [map_ptr_treeModify hf]

/-- A change of an entry at another address, or one that does not clear the lock. -/
theorem TreeHeld.modify {f : DumpEntry → DumpEntry} (h : TreeHeld t q)
    (hf : ∀ e, (f e).ptr = e.ptr) (hlock : q ≠ p ∨ ∀ e, e.lock = true → (f e).lock = true) :
    TreeHeld (treeModify t p f) q := by
  obtain ⟨e, he, rfl, hl⟩ := h
  refine ⟨_, List.mem_map_of_mem he, ?_⟩
  split
  · next hp =>
    refine ⟨hf e, hlock.resolve_left (fun hne => hne hp) e hl⟩
  · exact ⟨rfl, hl⟩

/-- The two trees have the same addresses where it matters: nothing that is locked is gone. -/
structure TreeKeeps (t t' : RibTree) : Prop where
  ok : TreeOk t → TreeOk t'
  held : TreeOk t → ∀ q, TreeHeld t q → TreeHeld t' q

theorem TreeKeeps.refl (t : RibTree) : TreeKeeps t t := ⟨id, fun _ _ h => h⟩

theorem TreeKeeps.trans {t₁ : RibTree} (h : TreeKeeps t t₁) (h' : TreeKeeps t₁ t') :
    TreeKeeps t t' :=
  ⟨fun ok => h'.ok (h.ok ok), fun ok q hq => h'.held (h.ok ok) q (h.held ok q hq)⟩

theorem treeModify_keeps {f : DumpEntry → DumpEntry} (hf : ∀ e, (f e).ptr = e.ptr)
    (hlock : ∀ e, e.lock = true → (f e).lock = true) : TreeKeeps t (treeModify t p f) :=
  ⟨fun ok => ok.modify hf, fun _ _ hq => hq.modify hf (Or.inr hlock)⟩

/-- `rib_remove` frees only entries that are not locked. -/
theorem ribRemove_keeps (h : ribRemove t p = some t') : TreeKeeps t t' := by
  unfold ribRemove at h
  obtain ⟨re, hre, h⟩ := Option.bind_eq_some_iff.mp h
  obtain ⟨hmem, hptr⟩ := treeGet_eq_some hre
  split_ifs at h with hempty hkeep
  · cases h
    exact TreeKeeps.refl t
  · cases h
    refine ⟨fun ok => ok.sublist (List.filter_sublist.map _), fun ok q hq => ?_⟩
    obtain ⟨e, he, rfl, hl⟩ := hq
    refine ⟨e, List.mem_filter.mpr ⟨he, ?_⟩, rfl, hl⟩
    -- the entry that is freed is not the locked one
    rw [decide_eq_true_eq]
    intro hep
    rw [ok.eq_of_ptr hmem he (hptr.trans hep.symm)] at hkeep
    simp [hl] at hkeep

theorem ribRemoveEmpty_keeps (h : ribRemoveEmpty t p = some t') : TreeKeeps t t' := by
  unfold ribRemoveEmpty at h
  obtain ⟨re, -, h⟩ := Option.bind_eq_some_iff.mp h
  split_ifs at h
  · exact ribRemove_keeps h
  · cases h
    exact TreeKeeps.refl t

/-- Unlocking an entry and freeing it if it is empty leaves the other locks alone. -/
theorem release_held (h : ribRemoveEmpty (reUnlock t p) p = some t') (ok : TreeOk t) :
    TreeOk t' ∧ ∀ q ≠ p, TreeHeld t q → TreeHeld t' q := by
  have hk := ribRemoveEmpty_keeps h
  have hunlock : TreeOk (reUnlock t p) := ok.modify fun _ => rfl
  exact ⟨hk.ok hunlock, fun q hne hq =>
    hk.held hunlock q (hq.modify (fun _ => rfl) (Or.inl hne))⟩

theorem treeInsert_keeps {e : DumpEntry} (hfresh : e.ptr ∉ t.map (·.ptr)) :
    TreeKeeps t (treeInsert env t e) := by
  have hperm : (treeInsert env t e).Perm (e :: t) := by
    unfold treeInsert
    apply List.perm_middle.trans
    rw [List.takeWhile_append_dropWhile]
  constructor
  · intro ok
    unfold TreeOk
    rw [(hperm.map _).nodup_iff]
    exact List.nodup_cons.mpr ⟨hfresh, ok⟩
  · rintro ok q ⟨x, hx, hq⟩
    exact ⟨x, hperm.mem_iff.mpr (List.mem_cons_of_mem _ hx), hq⟩

/-! ## Changes of paths -/

/-- The entry at an address is in the tree of the RIB and locked. -/
def Held (s : RibDumps) (id : ℕ) (p : Ptr) : Prop := ∃ t, s.ribs id = some t ∧ TreeHeld t p

/-- All trees are in order. -/
def TreesOk (s : RibDumps) : Prop := ∀ id t, s.ribs id = some t → TreeOk t

/-- What changes of paths leave alone: the contexts, the locks and the RIBs. Only entries of
    RIBs get queued. -/
structure Keeps (s s' : RibDumps) : Prop where
  dumps : s'.dumps = s.dumps
  ribs : ∀ id, (s'.ribs id).isSome = (s.ribs id).isSome
  queued : ∀ peer, ∀ x ∈ s'.pq peer, (∃ peer', x ∈ s.pq peer') ∨ (s.ribs x.1).isSome = true
  ok : TreesOk s → TreesOk s'
  held : TreesOk s → ∀ id p, Held s id p → Held s' id p

theorem Keeps.refl (s : RibDumps) : Keeps s s :=
  ⟨rfl, fun _ => rfl, fun peer _ hx => Or.inl ⟨peer, hx⟩, id, fun _ _ _ h => h⟩

theorem Keeps.trans (h : Keeps s s₁) (h' : Keeps s₁ s') : Keeps s s' where
  dumps := h'.dumps.trans h.dumps
  ribs id := (h'.ribs id).trans (h.ribs id)
  queued peer x hx := by
    rcases h'.queued peer x hx with ⟨peer', hx⟩ | hx
    · exact h.queued peer' x hx
    · exact Or.inr (by rwa [h.ribs] at hx)
  ok hok := h'.ok (h.ok hok)
  held hok id p hp := h'.held (h.ok hok) id p (h.held hok id p hp)

theorem ribs_setTree (s : RibDumps) (id id' : ℕ) (t : RibTree) :
    (s.setTree id t).ribs id' = if id' = id then some t else s.ribs id' := by
  exact Function.update_apply ..

/-- A tree that keeps its locks takes the place of the one before. -/
theorem setTree_keeps (ht : s.ribs id = some t) (hk : TreeKeeps t t') :
    Keeps s (s.setTree id t') where
  dumps := rfl
  ribs id' := by
    rw [ribs_setTree]
    split
    · next h => rw [h, ht]; rfl
    · rfl
  queued peer x hx := Or.inl ⟨peer, hx⟩
  ok hok id' t'' h := by
    rw [ribs_setTree] at h
    split at h
    · cases h
      exact hk.ok (hok id t ht)
    · exact hok id' t'' h
  held hok id' p := by
    rintro ⟨t₀, ht₀, hp⟩
    by_cases hid : id' = id
    · subst hid
      obtain rfl : t = t₀ := Option.some.inj (ht.symm.trans ht₀)
      exact ⟨t', by rw [ribs_setTree, if_pos rfl], hk.held (hok _ _ ht) p hp⟩
    · exact ⟨t₀, by rw [ribs_setTree, if_neg hid]; exact ht₀, hp⟩

theorem ribPqEnqueue_keeps {peer : PeerId} (h : s.ribPqEnqueue id p peer = some s') :
    Keeps s s' := by
  unfold RibDumps.ribPqEnqueue at h
  obtain ⟨t, ht, h⟩ := Option.bind_eq_some_iff.mp h
  obtain ⟨re, -, h⟩ := Option.bind_eq_some_iff.mp h
  split_ifs at h
  · cases h
    exact Keeps.refl s
  · cases h
    have hk : Keeps s (s.setTree id (treeModify t p fun e => { e with queued := true })) :=
      setTree_keeps ht (treeModify_keeps (fun _ => rfl) fun _ hl => hl)
    refine ⟨hk.dumps, hk.ribs, fun peer' x hx => ?_, hk.ok, hk.held⟩
    dsimp only at hx
    rw [Function.update_apply] at hx
    split at hx
    · rcases List.mem_append.mp hx with hx | hx
      · exact Or.inl ⟨peer, hx⟩
      · rw [List.mem_singleton.mp hx, ht]
        exact Or.inr rfl
    · exact Or.inl ⟨peer', hx⟩

theorem changePrefixes_keeps {pt : PtEntry} {op : RibDumps.EntryOp}
    (h : s.changePrefixes env id pt op = some (s', p)) : Keeps s s' := by
  unfold RibDumps.changePrefixes at h
  obtain ⟨t, ht, h⟩ := Option.bind_eq_some_iff.mp h
  split at h
  · cases h
  · split_ifs at h
    · cases h
      exact setTree_keeps ht (treeModify_keeps (fun _ => rfl) fun _ hl => hl)
    · cases h
      exact Keeps.refl s
  · cases h
    exact setTree_keeps ht (treeModify_keeps (fun _ => rfl) fun _ hl => hl)
  · split_ifs at h with hfresh
    cases h
    exact setTree_keeps ht (treeInsert_keeps hfresh)

theorem entryOp_keeps {pt : PtEntry} {op : RibDumps.EntryOp}
    (h : s.entryOp env id pt op = some s') : Keeps s s' := by
  unfold RibDumps.entryOp at h
  obtain ⟨⟨s₁, p⟩, h₁, h⟩ := Option.bind_eq_some_iff.mp h
  obtain ⟨s₂, h₂, h⟩ := Option.bind_eq_some_iff.mp h
  have hk₂ : Keeps s₁ s₂ := by
    cases hq : op.enqueue with
    | none =>
      rw [hq] at h₂
      cases h₂
      exact Keeps.refl s₁
    | some peer =>
      rw [hq] at h₂
      exact ribPqEnqueue_keeps h₂
  apply ((changePrefixes_keeps h₁).trans hk₂).trans
  split_ifs at h
  · obtain ⟨t, ht, h⟩ := Option.bind_eq_some_iff.mp h
    obtain ⟨t', ht', rfl⟩ := Option.map_eq_some_iff.mp h
    exact setTree_keeps ht (ribRemoveEmpty_keeps ht')
  · cases h
    exact Keeps.refl _

/-- A callback. -/
theorem ribCall_keeps {upcall : RibDumps.Upcall} {pt : PtEntry}
    (h : s.ribCall env upcall pt = some s') : Keeps s s' := by
  unfold RibDumps.ribCall at h
  generalize upcall pt = ops at h
  induction ops generalizing s with
  | nil =>
    cases h
    exact Keeps.refl _
  | cons x ops ih =>
    rw [List.foldlM_cons] at h
    obtain ⟨s₁, h₁, h⟩ := Option.bind_eq_some_iff.mp h
    exact (entryOp_keeps h₁).trans (ih h)

/-! ## Walks -/

/-- A walk keeps all locks. The entry at which it pauses is locked then, and was not before. -/
theorem dumpWalk_spec {upcall : RibDumps.Upcall} {ctx : RibContext} {todo : List Ptr} {i : ℕ}
    {paused : Option Ptr} (h : RibDumps.dumpWalk env upcall ctx todo i s = some (s', paused))
    (hok : TreesOk s) :
    Keeps s s' ∧ ∀ p ∈ paused, Held s' ctx.id p ∧ ¬Held s ctx.id p := by
  induction todo generalizing i s with
  | nil =>
    cases h
    exact ⟨Keeps.refl _, by simp⟩
  | cons p todo ih =>
    rw [RibDumps.dumpWalk] at h
    obtain ⟨t, ht, h⟩ := Option.bind_eq_some_iff.mp h
    obtain ⟨re, hre, h⟩ := Option.bind_eq_some_iff.mp h
    obtain ⟨hmem, hptr⟩ := treeGet_eq_some hre
    split_ifs at h with hempty haid hsub hpause
    -- an empty entry and one of another address family are passed over
    · exact ih h hok
    · exact ih h hok
    · cases h
      exact ⟨Keeps.refl _, by simp⟩
    -- the walk pauses: the entry was not locked, and is now
    · cases h
      have hkeep : TreeKeeps t (reLock t p) := treeModify_keeps (fun _ => rfl) fun _ _ => rfl
      refine ⟨setTree_keeps ht hkeep, ?_⟩
      rintro q ⟨⟩
      constructor
      · refine ⟨reLock t p, by rw [ribs_setTree, if_pos rfl], _, List.mem_map_of_mem hmem, ?_⟩
        rw [if_pos hptr]
        exact ⟨hptr, rfl⟩
      · -- the entry is the only one at this address
        rintro ⟨t₀, ht₀, e, he, hep, hl⟩
        obtain rfl : t = t₀ := Option.some.inj (ht.symm.trans ht₀)
        rw [(hok _ _ ht).eq_of_ptr he hmem (hep.trans hptr.symm), hpause.2.2] at hl
        cases hl
    -- the callback keeps every lock
    · obtain ⟨s₁, h₁, h⟩ := Option.bind_eq_some_iff.mp h
      have hk := ribCall_keeps h₁
      obtain ⟨hk', hp⟩ := ih h (hk.ok hok)
      refine ⟨hk.trans hk', fun q hq => ?_⟩
      exact ⟨(hp q hq).1, fun hheld => (hp q hq).2 (hk.held hok _ _ hheld)⟩

/-! ## Contexts -/

/-- Contexts hold the locks of the entries at which they paused, and no two of them hold the
    same lock. -/
structure DumpInv (s : RibDumps) : Prop where
  ok : TreesOk s
  addrs : (s.dumps.map (·.addr)).Nodup
  held : ∀ c ∈ s.dumps, ∀ p ∈ c.re, Held s c.id p
  distinct : ∀ c ∈ s.dumps, ∀ d ∈ s.dumps, c.addr ≠ d.addr → c.id = d.id →
    ∀ p ∈ c.re, p ∉ d.re

theorem DumpInv.init : DumpInv {} where
  ok := by simp [TreesOk]
  addrs := List.nodup_nil
  held := by simp
  distinct := by simp

theorem DumpInv.keeps (hi : DumpInv s) (hk : Keeps s s') : DumpInv s' where
  ok := hk.ok hi.ok
  addrs := by
    rw [hk.dumps]
    exact hi.addrs
  held c hc p hp := hk.held hi.ok _ _ (hi.held c (hk.dumps ▸ hc) p hp)
  distinct := by
    rw [hk.dumps]
    exact hi.distinct

theorem DumpInv.eq_of_addr (hi : DumpInv s) {c d : RibContext} (hc : c ∈ s.dumps)
    (hd : d ∈ s.dumps) (h : c.addr = d.addr) : c = d :=
  List.inj_on_of_nodup_map hi.addrs hc hd h

/-- Fewer contexts. -/
theorem DumpInv.sublist (hi : DumpInv s) {l : List RibContext} (hl : l.Sublist s.dumps) :
    DumpInv { s with dumps := l } where
  ok := hi.ok
  addrs := hi.addrs.sublist (hl.map _)
  held c hc p hp := hi.held c (hl.subset hc) p hp
  distinct c hc d hd := hi.distinct c (hl.subset hc) d (hl.subset hd)

/-- A context lets go of its entry: the other contexts still hold theirs. -/
theorem DumpInv.release (hi : DumpInv s) {ctx : RibContext} (hctx : ctx ∈ s.dumps)
    (hp : p ∈ ctx.re) (ht : s.ribs ctx.id = some t)
    (h : ribRemoveEmpty (reUnlock t p) p = some t') :
    DumpInv ((s.setTree ctx.id t').setRe ctx.addr none) := by
  obtain ⟨hok', hothers⟩ := release_held h (hi.ok _ _ ht)
  -- all other locked entries stay
  have hheld : ∀ id q, Held s id q → ¬(id = ctx.id ∧ q = p) → Held (s.setTree ctx.id t') id q := by
    rintro id q ⟨t₀, ht₀, hq⟩ hne
    by_cases hid : id = ctx.id
    · subst hid
      obtain rfl : t = t₀ := Option.some.inj (ht.symm.trans ht₀)
      exact ⟨t', by rw [ribs_setTree, if_pos rfl], hothers q (fun hqp => hne ⟨rfl, hqp⟩) hq⟩
    · exact ⟨t₀, by rw [ribs_setTree, if_neg hid]; exact ht₀, hq⟩
  -- a context after the change, and the one that it was
  have hmem : ∀ c ∈ ((s.setTree ctx.id t').setRe ctx.addr none).dumps, ∃ d ∈ s.dumps,
      c.addr = d.addr ∧ c.id = d.id ∧
        (c.re = none ∧ d = ctx ∨ c = d ∧ d.addr ≠ ctx.addr) := by
    intro c hc
    obtain ⟨d, hd, rfl⟩ := List.mem_map.mp hc
    split
    · next haddr => exact ⟨d, hd, rfl, rfl, Or.inl ⟨rfl, hi.eq_of_addr hd hctx haddr⟩⟩
    · next haddr => exact ⟨d, hd, rfl, rfl, Or.inr ⟨rfl, haddr⟩⟩
  constructor
  · intro id t'' h''
    have h'' : (s.setTree ctx.id t').ribs id = some t'' := h''
    rw [ribs_setTree] at h''
    split at h''
    · cases h''
      exact hok'
    · exact hi.ok id t'' h''
  -- a context keeps its address, and the others keep their entries
  · have hsame : ((s.setTree ctx.id t').setRe ctx.addr none).dumps.map (·.addr) =
        s.dumps.map (·.addr) := by
      show (List.map _ s.dumps).map _ = _
      rw [List.map_map]
      apply List.map_congr_left
      intro c _
      dsimp only [Function.comp]
      split <;> rfl
    rw [hsame]
    exact hi.addrs
  · intro c hc q hq
    obtain ⟨d, hd, -, -, ⟨hre, -⟩ | ⟨rfl, hne⟩⟩ := hmem c hc
    · rw [hre] at hq
      cases hq
    · apply hheld _ _ (hi.held c hd q hq)
      rintro ⟨hid, rfl⟩
      exact hi.distinct c hd ctx hctx hne hid q hq hp
  -- two contexts are never paused at one entry
  · intro c hc d hd haddr hid q hq
    obtain ⟨c', hc', -, -, ⟨hre, -⟩ | ⟨rfl, -⟩⟩ := hmem c hc
    · rw [hre] at hq
      cases hq
    obtain ⟨d', hd', -, -, ⟨hre, -⟩ | ⟨rfl, -⟩⟩ := hmem d hd
    · rw [hre]
      simp
    · exact hi.distinct c hc' d hd' haddr hid q hq

/-- A context that holds no entry pauses at one that no other context holds. -/
theorem DumpInv.pause (hi : DumpInv s) {addr : Ptr} {id : ℕ}
    (hid : ∀ c ∈ s.dumps, c.addr = addr → c.id = id) (hheld : Held s id p)
    (hfree : ∀ c ∈ s.dumps, c.addr ≠ addr → c.id = id → p ∉ c.re) :
    DumpInv (s.setRe addr (some p)) := by
  have hmem : ∀ c ∈ (s.setRe addr (some p)).dumps, ∃ d ∈ s.dumps, c.addr = d.addr ∧ c.id = d.id ∧
      (c.re = some p ∧ d.addr = addr ∨ c = d ∧ d.addr ≠ addr) := by
    intro c hc
    obtain ⟨d, hd, rfl⟩ := List.mem_map.mp hc
    split
    · next haddr => exact ⟨d, hd, rfl, rfl, Or.inl ⟨rfl, haddr⟩⟩
    · next haddr => exact ⟨d, hd, rfl, rfl, Or.inr ⟨rfl, haddr⟩⟩
  constructor
  · exact hi.ok
  · have hsame : (s.setRe addr (some p)).dumps.map (·.addr) = s.dumps.map (·.addr) := by
      show (List.map _ s.dumps).map _ = _
      rw [List.map_map]
      apply List.map_congr_left
      intro c _
      dsimp only [Function.comp]
      split <;> rfl
    rw [hsame]
    exact hi.addrs
  -- the context that pauses holds the entry it was given
  · intro c hc q hq
    obtain ⟨d, hd, -, hcid, ⟨hre, haddr⟩ | ⟨rfl, -⟩⟩ := hmem c hc
    · rw [hre] at hq
      cases hq
      rw [hcid, hid d hd haddr]
      exact hheld
    · exact hi.held c hd q hq
  -- and no other context of this RIB holds it
  · intro c hc d hd haddr hcd q hq
    obtain ⟨c', hc', hca, hci, ⟨hcre, hcaddr⟩ | ⟨rfl, hcne⟩⟩ := hmem c hc <;>
      obtain ⟨d', hd', hda, hdi, ⟨hdre, hdaddr⟩ | ⟨rfl, hdne⟩⟩ := hmem d hd
    · exact absurd ((hca.trans hcaddr).trans (hda.trans hdaddr).symm) haddr
    · rw [hcre] at hq
      cases hq
      exact hfree d hd' hdne (hcd.symm.trans (hci.trans (hid c' hc' hcaddr)))
    · rw [hdre]
      rintro ⟨⟩
      exact hfree c hc' hcne (hcd.trans (hdi.trans (hid d' hd' hdaddr))) hq
    · exact hi.distinct c hc' d hd' haddr hcd q hq

/-- The start of a walk: the context lets go of its entry. -/
theorem DumpInv.start (hi : DumpInv s) {ctx : RibContext} (hctx : ctx ∈ s.dumps)
    (ht : s.ribs ctx.id = some t) {todo : List Ptr}
    (h : RibDumps.dumpStart t ctx = some (t', todo)) :
    DumpInv ((s.setTree ctx.id t').setRe ctx.addr none) := by
  -- a context that holds no entry
  have hnone : ctx.re = none → t' = t → DumpInv ((s.setTree ctx.id t').setRe ctx.addr none) := by
    rintro hre rfl
    have hsame : (s.setTree ctx.id t').setRe ctx.addr none = s := by
      have hribs : Function.update s.ribs ctx.id (some t') = s.ribs := by
        rw [← ht]
        exact Function.update_eq_self _ _
      have hdumps : (s.dumps.map fun c => if c.addr = ctx.addr then { c with re := none } else c) =
          s.dumps := by
        apply (List.map_congr_left fun c hc => ?_).trans (List.map_id _)
        split
        · next haddr =>
          rw [hi.eq_of_addr hc hctx haddr, ← hre]
          rfl
        · rfl
      exact congr (congrArg (fun r d => RibDumps.mk r s.pq d) hribs) hdumps
    rw [hsame]
    exact hi
  unfold RibDumps.dumpStart at h
  split_ifs at h with hfirst
  · cases h
    exact hnone hfirst.1 rfl
  · cases hre : ctx.re with
    | none =>
      rw [hre] at h
      cases h
      exact hnone hre rfl
    | some p =>
      rw [hre] at h
      -- a context that was paused gives its entry back before it walks
      obtain ⟨-, -, h⟩ := Option.bind_eq_some_iff.mp h
      obtain ⟨t₁, ht₁, h⟩ := Option.bind_eq_some_iff.mp h
      cases h
      exact hi.release hctx hre ht ht₁

/-- `rib_dump_r` -/
theorem DumpInv.ribDumpR (hi : DumpInv s) {upcall : RibDumps.Upcall} {addr : Ptr}
    (h : s.ribDumpR env upcall addr = some s') : DumpInv s' := by
  unfold RibDumps.ribDumpR at h
  obtain ⟨ctx, hctx, h⟩ := Option.bind_eq_some_iff.mp h
  obtain ⟨t, ht, h⟩ := Option.bind_eq_some_iff.mp h
  obtain ⟨⟨t₁, todo⟩, hstart, h⟩ := Option.bind_eq_some_iff.mp h
  obtain ⟨⟨s₁, paused⟩, hwalk, h⟩ := Option.bind_eq_some_iff.mp h
  have hmem : ctx ∈ s.dumps := List.mem_of_find?_eq_some hctx
  have haddr : ctx.addr = addr := by simpa using List.find?_some hctx
  subst haddr
  have hi₀ := hi.start hmem ht hstart
  obtain ⟨hk, hpaused⟩ := dumpWalk_spec hwalk hi₀.ok
  have hi₁ := hi₀.keeps hk
  -- the context is freed, or pauses at an entry the walk has locked
  cases paused with
  | none =>
    cases h
    exact hi₁.sublist List.filter_sublist
  | some p =>
    cases h
    obtain ⟨hheld, hnot⟩ := hpaused p rfl
    have hback : ∀ c ∈ s₁.dumps, ∃ d ∈ s.dumps, c.addr = d.addr ∧ c.id = d.id := by
      intro c hc
      rw [hk.dumps] at hc
      obtain ⟨d, hd, rfl⟩ := List.mem_map.mp hc
      refine ⟨d, hd, ?_⟩
      split <;> exact ⟨rfl, rfl⟩
    apply hi₁.pause _ hheld
    · -- the entry was not locked when the walk started
      intro c hc hne hid hp
      rw [hk.dumps] at hc
      have := hi₀.held c hc p hp
      rw [hid] at this
      exact hnot this
    · intro c hc hca
      obtain ⟨d, hd, hda, hdi⟩ := hback c hc
      rw [hdi, hi.eq_of_addr hd hmem (hda.symm.trans hca)]

/-- A new context that holds no entry, or one that no other context holds. -/
theorem DumpInv.insert (hi : DumpInv s) {ctx : RibContext}
    (hfresh : ctx.addr ∉ s.dumps.map (·.addr)) (hheld : ∀ p ∈ ctx.re, Held s ctx.id p)
    (hfree : ∀ p ∈ ctx.re, ∀ c ∈ s.dumps, c.id = ctx.id → p ∉ c.re) :
    DumpInv { s with dumps := ctx :: s.dumps } := by
  refine ⟨hi.ok, List.nodup_cons.mpr ⟨hfresh, hi.addrs⟩, ?_, ?_⟩
  · intro c hc p hp
    rcases List.mem_cons.mp hc with rfl | hc
    · exact hheld p hp
    · exact hi.held c hc p hp
  · intro c hc d hd haddr hid p hp
    rcases List.mem_cons.mp hc with rfl | hc'
    · rcases List.mem_cons.mp hd with rfl | hd'
      · exact absurd rfl haddr
      · exact hfree p hp d hd' hid.symm
    · rcases List.mem_cons.mp hd with rfl | hd'
      · exact fun hpd => hfree p hpd c hc' hid hp
      · exact hi.distinct c hc' d hd' haddr hid p hp

theorem DumpInv.dumpInsert (hi : DumpInv s) {upcall : RibDumps.Upcall} {ctx : RibContext}
    (hheld : ∀ p ∈ ctx.re, Held s ctx.id p)
    (hfree : ∀ p ∈ ctx.re, ∀ c ∈ s.dumps, c.id = ctx.id → p ∉ c.re)
    (h : s.dumpInsert env upcall ctx = some s') : DumpInv s' := by
  unfold RibDumps.dumpInsert at h
  split_ifs at h with hfresh hcount
  · exact (hi.insert hfresh hheld hfree).ribDumpR h
  · cases h
    exact hi.insert hfresh hheld hfree

theorem DumpInv.ribDumpNew (hi : DumpInv s) {upcall : RibDumps.Upcall} {addr : Ptr}
    {aid : Option Aid} {count arg : ℕ}
    (h : s.ribDumpNew env upcall addr id aid count arg = some s') : DumpInv s' := by
  unfold RibDumps.ribDumpNew at h
  obtain ⟨t, -, h⟩ := Option.bind_eq_some_iff.mp h
  exact hi.dumpInsert (by simp) (by simp) h

theorem held_reLock {re : DumpEntry} (hmem : re ∈ t) :
    Held (s.setTree id (reLock t re.ptr)) id re.ptr := by
  refine ⟨reLock t re.ptr, by rw [ribs_setTree, if_pos rfl], _, List.mem_map_of_mem hmem, ?_⟩
  rw [if_pos rfl]
  exact ⟨rfl, rfl⟩

/-- No context is paused at an entry that is not locked. -/
theorem DumpInv.not_held (hi : DumpInv s) {re : DumpEntry} (ht : s.ribs id = some t)
    (hmem : re ∈ t) (hlock : re.lock = false) : ∀ c ∈ s.dumps, c.id = id → re.ptr ∉ c.re := by
  intro c hc hid hp
  obtain ⟨t₀, ht₀, e, he, hep, hl⟩ := hi.held c hc _ hp
  have ht₀ : s.ribs id = some t₀ := by rw [← ht₀]; exact congrArg s.ribs hid.symm
  obtain rfl : t = t₀ := Option.some.inj (ht.symm.trans ht₀)
  rw [(hi.ok _ _ ht).eq_of_ptr he hmem hep, hlock] at hl
  cases hl

/-- `rib_dump_subtree` if the entry that starts the subtree is not locked. -/
theorem DumpInv.ribDumpSubtree (hi : DumpInv s) {upcall : RibDumps.Upcall} {addr : Ptr}
    {subtree : BgpdAddr} {len count arg : ℕ}
    (hfree : ∀ t ∈ s.ribs id, ∀ re ∈ treeNfind env t (env.ptFill subtree len), re.lock = false)
    (h : s.ribDumpSubtree env upcall addr id subtree len count arg = some s') : DumpInv s' := by
  unfold RibDumps.ribDumpSubtree at h
  obtain ⟨t, ht, h⟩ := Option.bind_eq_some_iff.mp h
  cases hre : treeNfind env t (env.ptFill subtree len) with
  | none =>
    rw [hre] at h
    exact hi.dumpInsert (by simp) (by simp) h
  | some re =>
    rw [hre] at h
    have hmem : re ∈ t := List.mem_of_find?_eq_some hre
    have hlock : TreeKeeps t (reLock t re.ptr) := treeModify_keeps (fun _ => rfl) fun _ _ => rfl
    apply (hi.keeps (setTree_keeps ht hlock)).dumpInsert _ _ h
    · rintro p ⟨⟩
      exact held_reLock hmem
    · rintro p ⟨⟩
      exact hi.not_held ht hmem (hfree t ht re hre)

/-! ## The end of contexts -/

theorem dropContext_setRe (s : RibDumps) (addr : Ptr) (re : Option Ptr) :
    (s.setRe addr re).dropContext addr = s.dropContext addr := by
  have hdumps : ∀ l : List RibContext,
      (l.map fun c => if c.addr = addr then { c with re := re } else c).filter
        (fun c => c.addr ≠ addr) = l.filter fun c => c.addr ≠ addr := by
    intro l
    induction l with
    | nil => rfl
    | cons c l ih =>
      rw [List.map_cons]
      by_cases hc : c.addr = addr
      · rw [if_pos hc, List.filter_cons_of_neg (by simp [hc]),
          List.filter_cons_of_neg (by simp [hc]),
          ih]
      · rw [if_neg hc, List.filter_cons_of_pos (by simp [hc]),
          List.filter_cons_of_pos (by simp [hc]),
          ih]
  exact congrArg (fun d => RibDumps.mk s.ribs s.pq d) (hdumps s.dumps)

/-- Contexts are gone, and otherwise the RIBs and the queues are as before. -/
structure Freed (gone : List Ptr) (s s' : RibDumps) : Prop where
  dumps : s'.dumps = s.dumps.filter fun c => c.addr ∉ gone
  ribs : ∀ id, (s'.ribs id).isSome = (s.ribs id).isSome
  pq : s'.pq = s.pq

/-- Freeing a dump takes its own context away and no other. -/
theorem ribDumpFree_freed {ctx : RibContext} (h : s.ribDumpFree ctx = some s') :
    Freed [ctx.addr] s s' := by
  have hdrop : ∀ s : RibDumps, (s.dropContext ctx.addr).dumps =
      s.dumps.filter fun c => c.addr ∉ [ctx.addr] := by
    intro s
    simp only [List.mem_singleton]
    rfl
  unfold RibDumps.ribDumpFree at h
  split at h
  · cases h
    exact ⟨hdrop s, fun _ => rfl, rfl⟩
  · next p hre =>
    obtain ⟨t, ht, h⟩ := Option.bind_eq_some_iff.mp h
    obtain ⟨-, -, h⟩ := Option.bind_eq_some_iff.mp h
    obtain ⟨t', -, h⟩ := Option.bind_eq_some_iff.mp h
    cases h
    refine ⟨hdrop _, fun id => ?_, rfl⟩
    show ((s.setTree ctx.id t').ribs id).isSome = _
    rw [ribs_setTree]
    split
    · next hid =>
      rw [hid, ht]
      rfl
    · rfl

theorem DumpInv.ribDumpFree (hi : DumpInv s) {ctx : RibContext} (hctx : ctx ∈ s.dumps)
    (h : s.ribDumpFree ctx = some s') : DumpInv s' := by
  unfold RibDumps.ribDumpFree at h
  split at h
  · cases h
    exact hi.sublist List.filter_sublist
  · next p hre =>
    obtain ⟨t, ht, h⟩ := Option.bind_eq_some_iff.mp h
    obtain ⟨-, -, h⟩ := Option.bind_eq_some_iff.mp h
    obtain ⟨t', ht', h⟩ := Option.bind_eq_some_iff.mp h
    cases h
    have hrel := hi.release hctx hre ht ht'
    rw [← dropContext_setRe _ _ none]
    exact hrel.sublist List.filter_sublist

/-- Several contexts are freed, one after the other. -/
theorem freeAll_freed {l : List RibContext} (h : l.foldlM RibDumps.ribDumpFree s = some s') :
    Freed (l.map (·.addr)) s s' := by
  induction l generalizing s with
  | nil =>
    cases h
    exact ⟨by simp, fun _ => rfl, rfl⟩
  | cons c l ih =>
    rw [List.foldlM_cons] at h
    obtain ⟨s₁, h₁, h⟩ := Option.bind_eq_some_iff.mp h
    have hf := ribDumpFree_freed h₁
    have hf' := ih h
    refine ⟨?_, fun id => (hf'.ribs id).trans (hf.ribs id), hf'.pq.trans hf.pq⟩
    rw [hf'.dumps, hf.dumps, List.filter_filter]
    apply List.filter_congr
    intro d _
    rw [List.map_cons, Bool.eq_iff_iff, Bool.and_eq_true, decide_eq_true_eq, decide_eq_true_eq,
      decide_eq_true_eq]
    simp only [List.mem_cons, List.not_mem_nil, or_false, not_or, and_comm]

theorem DumpInv.freeAll {l : List RibContext} (hi : DumpInv s) (hl : ∀ c ∈ l, c ∈ s.dumps)
    (hnd : (l.map (·.addr)).Nodup) (h : l.foldlM RibDumps.ribDumpFree s = some s') :
    DumpInv s' := by
  induction l generalizing s with
  | nil =>
    cases h
    exact hi
  | cons c l ih =>
    rw [List.foldlM_cons] at h
    obtain ⟨s₁, h₁, h⟩ := Option.bind_eq_some_iff.mp h
    rw [List.map_cons, List.nodup_cons] at hnd
    apply ih (hi.ribDumpFree (hl c (List.mem_cons_self ..)) h₁) _ hnd.2 h
    intro d hd
    rw [(ribDumpFree_freed h₁).dumps, List.mem_filter]
    refine ⟨hl d (List.mem_cons_of_mem _ hd), ?_⟩
    have hne : d.addr ≠ c.addr := by
      intro heq
      exact hnd.1 (heq ▸ List.mem_map_of_mem hd)
    simpa using hne

theorem DumpInv.freeFilter (hi : DumpInv s) {f : RibContext → Bool}
    (h : (s.dumps.filter f).foldlM RibDumps.ribDumpFree s = some s') : DumpInv s' := by
  apply hi.freeAll (fun c hc => (List.mem_filter.mp hc).1) _ h
  exact hi.addrs.sublist (List.filter_sublist.map _)

/-- The contexts that are left are those that were not chosen. -/
theorem freeFilter_dumps (hnd : (s.dumps.map (·.addr)).Nodup) {f : RibContext → Bool}
    (h : (s.dumps.filter f).foldlM RibDumps.ribDumpFree s = some s') :
    s'.dumps = s.dumps.filter fun c => !f c := by
  rw [(freeAll_freed h).dumps]
  apply List.filter_congr
  intro c hc
  have hiff : c.addr ∈ (s.dumps.filter f).map (·.addr) ↔ f c = true := by
    constructor
    · intro hmem
      obtain ⟨d, hd, haddr⟩ := List.mem_map.mp hmem
      obtain ⟨hd, hf⟩ := List.mem_filter.mp hd
      rwa [List.inj_on_of_nodup_map hnd hd hc haddr] at hf
    · exact fun hf => List.mem_map_of_mem (List.mem_filter.mpr ⟨hc, hf⟩)
  rw [Bool.eq_iff_iff, decide_eq_true_eq, hiff]
  simp

/-! ## Queues and RIBs -/

theorem peerProcessUpdates_keeps {peer : PeerId} (h : s.peerProcessUpdates peer = some s') :
    Keeps s s' := by
  unfold RibDumps.peerProcessUpdates at h
  split at h
  · cases h
    exact Keeps.refl _
  · next id p q hq =>
    obtain ⟨t, ht, h⟩ := Option.bind_eq_some_iff.mp h
    obtain ⟨-, -, h⟩ := Option.bind_eq_some_iff.mp h
    obtain ⟨t', ht', h⟩ := Option.bind_eq_some_iff.mp h
    cases h
    have hk : Keeps s (s.setTree id t') := by
      apply setTree_keeps ht
      apply TreeKeeps.trans (treeModify_keeps _ _) (ribRemoveEmpty_keeps ht')
      · exact fun _ => rfl
      · exact fun _ hl => hl
    refine ⟨hk.dumps, hk.ribs, fun peer' x hx => ?_, hk.ok, hk.held⟩
    dsimp only at hx
    rw [Function.update_apply] at hx
    split at hx
    · exact Or.inl ⟨peer, by rw [hq]; exact List.mem_cons_of_mem _ hx⟩
    · exact Or.inl ⟨peer', hx⟩

theorem peerDelete_keeps (peer : PeerId) : Keeps s (s.peerDelete peer) := by
  unfold RibDumps.peerDelete
  split
  · exact Keeps.refl s
  · refine ⟨rfl, fun _ => rfl, fun peer' x hx => Or.inl ?_, id, fun _ _ _ h => h⟩
    dsimp only at hx
    rw [Function.update_apply] at hx
    split at hx
    · cases hx
    · rw [Function.update_apply] at hx
      split at hx
      · rcases List.mem_append.mp hx with hx | hx
        · exact ⟨_, hx⟩
        · exact ⟨_, hx⟩
      · exact ⟨_, hx⟩

theorem DumpInv.ribNew (hi : DumpInv s) (h : s.ribNew id = some s') : DumpInv s' := by
  unfold RibDumps.ribNew at h
  split_ifs at h with hsome
  cases h
  have hnone : s.ribs id = none := by simpa using hsome
  refine ⟨?_, hi.addrs, fun c hc p hp => ?_, hi.distinct⟩
  · intro id' t ht
    rw [ribs_setTree] at ht
    split at ht
    · cases ht
      exact List.nodup_nil
    · exact hi.ok id' t ht
  · obtain ⟨t, ht, hp⟩ := hi.held c hc p hp
    refine ⟨t, ?_, hp⟩
    rw [ribs_setTree, if_neg]
    · exact ht
    · intro hid
      rw [hid, hnone] at ht
      cases ht

/-- `rib_free`: the contexts that hold an entry of the RIB are gone before the RIB is. -/
theorem DumpInv.ribFree (hi : DumpInv s) (h : s.ribFree id = some s') : DumpInv s' := by
  unfold RibDumps.ribFree at h
  obtain ⟨s₁, h₁, h⟩ := Option.bind_eq_some_iff.mp h
  obtain ⟨t, ht, h⟩ := Option.bind_eq_some_iff.mp h
  have hi₁ := hi.freeFilter h₁
  -- of this RIB only contexts that have not started are left
  have hleft : ∀ c ∈ s₁.dumps, c.id = id → c.re = none := by
    intro c hc hid
    rw [freeFilter_dumps hi.addrs h₁] at hc
    have := (List.mem_filter.mp hc).2
    by_contra hne
    simp [hid, hne] at this
  split_ifs at h
  -- the default RIBs stay, without their entries
  · cases h
    apply hi₁.keeps
    apply setTree_keeps ht
    have hptr : ∀ l : RibTree,
        (l.map fun e => { e with prefixes := 0 }).map (·.ptr) = l.map (·.ptr) := by
      intro l
      rw [List.map_map]
      rfl
    constructor
    · intro ok
      unfold TreeOk RibDumps.flushTree
      rw [hptr]
      exact ok.sublist (List.filter_sublist.map _)
    · rintro ok q ⟨e, he, hq, hl⟩
      exact ⟨_, List.mem_map_of_mem (List.mem_filter.mpr ⟨he, by simp [hl]⟩), hq, hl⟩
  -- any other RIB goes with its tree
  · cases h
    refine ⟨fun id' t' ht' => ?_, hi₁.addrs, fun c hc p hp => ?_, hi₁.distinct⟩
    · dsimp only at ht'
      rw [Function.update_apply] at ht'
      split at ht'
      · cases ht'
      · exact hi₁.ok id' t' ht'
    · have hne : c.id ≠ id := by
        intro hid
        rw [hleft c hc hid] at hp
        cases hp
      obtain ⟨t', ht', hheld⟩ := hi₁.held c hc p hp
      refine ⟨t', ?_, hheld⟩
      show Function.update s₁.ribs id none c.id = some t'
      rw [Function.update_of_ne hne]
      exact ht'

theorem DumpInv.rdeReloadDone (hi : DumpInv s) {delete : List ℕ}
    (h : s.rdeReloadDone delete = some s') : DumpInv s' := by
  unfold RibDumps.rdeReloadDone at h
  induction delete generalizing s with
  | nil =>
    cases h
    exact hi
  | cons id delete ih =>
    rw [List.foldlM_cons] at h
    obtain ⟨s₁, h₁, h⟩ := Option.bind_eq_some_iff.mp h
    exact ih (hi.ribFree h₁) h

/-! ## Runs -/

/-- The entry that starts a subtree is not locked when `rib_dump_subtree` is called. -/
def SubtreeOk (env : DumpEnv) (s : RibDumps) : DumpEvent → Prop
  | .dumpSubtree _ _ id subtree len _ _ =>
    ∀ t ∈ s.ribs id, ∀ re ∈ treeNfind env t (env.ptFill subtree len), re.lock = false
  | _ => True

instance (s : RibDumps) (e : DumpEvent) : Decidable (SubtreeOk env s e) := by
  cases e <;> unfold SubtreeOk <;> infer_instance

theorem DumpInv.step {e : DumpEvent} (hi : DumpInv s) (he : SubtreeOk env s e)
    (h : dumpStep env s e = some s') : DumpInv s' := by
  cases e with
  | ribNew id => exact hi.ribNew h
  | entryOp id pt op => exact hi.keeps (entryOp_keeps h)
  | processUpdates peer => exact hi.keeps (peerProcessUpdates_keeps h)
  | peerDelete peer =>
    cases h
    exact hi.keeps (peerDelete_keeps peer)
  | dumpNew upcall addr id aid count arg => exact hi.ribDumpNew h
  | dumpSubtree upcall addr id subtree len count arg => exact hi.ribDumpSubtree he h
  | adjoutDumpNew addr id arg =>
    simp only [dumpStep, RibDumps.adjoutPrefixDumpNew] at h
    split_ifs at h with hfresh
    cases h
    exact hi.insert hfresh (by simp) (by simp)
  | dumpR upcall addr => exact hi.ribDumpR h
  | terminate arg => exact hi.freeFilter h
  | reload delete => exact hi.rdeReloadDone h

/-- In every run in which `rib_dump_subtree` never starts at a locked entry, paused contexts
    hold the locks of their entries, which are in the trees of their RIBs. -/
theorem paused_entry_locked {es : List DumpEvent}
    (h : Run (dumpStep env) (SubtreeOk env) {} es s) :
    ∀ c ∈ s.dumps, ∀ p ∈ c.re, ∃ t, s.ribs c.id = some t ∧
      ∃ e ∈ t, e.ptr = p ∧ e.lock = true := by
  have hinv : DumpInv s := h.invariant (fun _ _ _ hi he hs => hi.step he hs) DumpInv.init
  exact hinv.held

/-- The IPv4 cases of `pt_prefix_cmp`, `pt_fill` and `prefix_compare`. -/
def sampleEnv : DumpEnv where
  ptPrefixCmp a b := (compare a.data b.data).then (compare a.prefixlen b.prefixlen)
  ptFill a len := ⟨.inet, a.addr / 2 ^ (32 - len) * 2 ^ (32 - len), len⟩
  inSubtree x pt := x.1.addr / 2 ^ (32 - x.2) = pt.data / 2 ^ (32 - x.2)

/-- The destination `10.n.0.0/16`. -/
def samplePt (n : ℕ) : PtEntry := ⟨.inet, 10 * 2 ^ 24 + n * 2 ^ 16, 16⟩

/-- The address `10.0.0.0`. -/
def sampleSubtree : BgpdAddr := { aid := some .inet, addr := 10 * 2 ^ 24 }

/-- A RIB with two destinations, a walk of the subtree from the first one, and a step of it
    after the first path is gone. -/
theorem paused_entry_locked_sample :
    ∃ s, Run (dumpStep sampleEnv) (SubtreeOk sampleEnv) {}
        [.ribNew 2, .entryOp 2 (samplePt 1) { add := some 1 },
          .entryOp 2 (samplePt 2) { add := some 2 },
          .dumpSubtree (fun _ => []) 1 2 sampleSubtree 8 1 1,
          .entryOp 2 (samplePt 1) { del := true }] s ∧
      (∃ c ∈ s.dumps, c.re = some 1) ∧
      ∀ c ∈ s.dumps, ∀ p ∈ c.re, ∃ t, s.ribs c.id = some t ∧
        ∃ e ∈ t, e.ptr = p ∧ e.lock = true := by
  obtain ⟨s, hrun, hs⟩ := exists_run (dumpStep sampleEnv) (SubtreeOk sampleEnv) {}
    [.ribNew 2, .entryOp 2 (samplePt 1) { add := some 1 },
      .entryOp 2 (samplePt 2) { add := some 2 },
      .dumpSubtree (fun _ => []) 1 2 sampleSubtree 8 1 1,
      .entryOp 2 (samplePt 1) { del := true }]
    (fun s => ∃ c ∈ s.dumps, c.re = some 1) (by decide)
  exact ⟨s, hrun, hs, paused_entry_locked hrun⟩

/-- Two walks of the same subtree: a step of the second one clears the lock, and the removal
    of the path frees the entry at which the first one paused. -/
theorem subtree_entry_lost :
    ∃ s, Run (dumpStep sampleEnv) (fun _ _ => True) {}
        [.ribNew 2, .entryOp 2 (samplePt 1) { add := some 1 },
          .entryOp 2 (samplePt 2) { add := some 2 },
          .dumpSubtree (fun _ => []) 1 2 sampleSubtree 8 1 1,
          .dumpSubtree (fun _ => []) 2 2 sampleSubtree 8 1 2,
          .dumpR (fun _ => []) 2, .entryOp 2 (samplePt 1) { del := true }] s ∧
      ∃ c ∈ s.dumps, c.re = some 1 ∧ (s.ribs c.id).any (fun t => treeGet t 1 = none) = true :=
  exists_run (dumpStep sampleEnv) (fun _ _ => True) {} _
    (fun s => ∃ c ∈ s.dumps, c.re = some 1 ∧
      (s.ribs c.id).any (fun t => treeGet t 1 = none) = true) (by decide)

end Bgpd.Rde.Dump
