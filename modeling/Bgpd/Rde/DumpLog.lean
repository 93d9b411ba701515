import Bgpd.Rde.DumpSpec

/-!
# What Walks Call

The log of a run of `rib_dump_r` and of everything that goes on between its calls: for which
entries the callback of a context is called, when `ctx_done` is called, and when an entry
loses its last path. Below it, what a change of paths does to the place of an entry in its
tree.

## Main results

- `dumpLog`: the log of one event
- `entryOp_place`: entries keep their order, and they stay unless they lose their last path
- `entryOp_others`: a change of paths leaves the other destinations alone
-/

namespace Bgpd.Rde.Dump

open Bgpd.Lib

/-! ## The log -/

/-- What contexts and entries notice of a run. -/
inductive DumpObs where
  /-- The callback of the context is called for the entry. -/
  | call (addr p : Ptr)
  /-- `ctx_done` of the context is called. -/
  | done (addr : Ptr)
  /-- The entry of the RIB lost its last path. -/
  | emptied (id : ℕ) (p : Ptr)
  deriving DecidableEq, Repr

namespace RibDumps

variable (env : DumpEnv) (s : RibDumps)

/-- The log of `entryOp`. -/
def entryOpLog (id : ℕ) (pt : PtEntry) (op : EntryOp) : List DumpObs :=
  match s.changePrefixes env id pt op with
  | none => []
  | some (s, p) =>
    if op.del ∧ ((s.ribs id).bind fun t => treeGet t p).any fun re => re.prefixes = 0 then
      [.emptied id p]
    else []

/-- The log of a callback. -/
def opsLog (pt : PtEntry) : List (ℕ × EntryOp) → RibDumps → List DumpObs
  | [], _ => []
  | x :: ops, s =>
    s.entryOpLog env x.1 pt x.2 ++
      match s.entryOp env x.1 pt x.2 with
      | none => []
      | some s => opsLog pt ops s

/-- The log of `dumpWalk`. -/
def walkLog (upcall : Upcall) (ctx : RibContext) : List Ptr → ℕ → RibDumps → List DumpObs
  | [], _, _ => []
  | p :: next, i, s =>
    match (s.ribs ctx.id).bind fun t => treeGet t p with
    | none => []
    | some re =>
      if re.prefixes = 0 then walkLog upcall ctx next i s
      else if ctx.aid ≠ none ∧ ctx.aid ≠ some re.pt.aid then walkLog upcall ctx next i s
      else if ctx.subtree.any fun x => !env.inSubtree x re.pt then []
      else if ctx.count ≠ 0 ∧ i ≥ ctx.count ∧ re.lock = false then []
      else
        .call ctx.addr p :: (opsLog env re.pt (upcall re.pt) s ++
          match s.ribCall env upcall re.pt with
          | none => []
          | some s => walkLog upcall ctx next (i + 1) s)

/-- The log of `ribDumpR`. -/
def ribDumpRLog (upcall : Upcall) (addr : Ptr) : List DumpObs :=
  match s.dumps.find? fun c => c.addr = addr with
  | none => []
  | some ctx =>
    match (s.ribs ctx.id).bind fun t => dumpStart t ctx with
    | none => []
    | some (t, todo) =>
      let s := (s.setTree ctx.id t).setRe addr none
      walkLog env upcall ctx todo 0 s ++
        match dumpWalk env upcall ctx todo 0 s with
        | some (_, none) => [.done addr]
        | _ => []

/-- The log of `dumpInsert`. -/
def dumpInsertLog (upcall : Upcall) (ctx : RibContext) : List DumpObs :=
  if ctx.addr ∉ s.dumps.map (·.addr) ∧ ctx.count = 0 then
    { s with dumps := ctx :: s.dumps }.ribDumpRLog env upcall ctx.addr
  else []

/-- The log of `ribFree`, where `rib_dump_abort` ends contexts and all paths are removed. -/
def ribFreeLog (id : ℕ) : List DumpObs :=
  ((s.dumps.filter fun c => c.id = id ∧ c.re ≠ none).map fun c => .done c.addr) ++
    (((s.ribs id).getD []).filter fun e => e.prefixes ≠ 0).map fun e => .emptied id e.ptr

end RibDumps

/-- The log of one event. -/
def dumpLog (env : DumpEnv) (s : RibDumps) : DumpEvent → List DumpObs
  | .entryOp id pt op => s.entryOpLog env id pt op
  | .dumpNew upcall addr id aid count arg =>
    s.dumpInsertLog env upcall { addr := addr, id := id, aid := aid, count := count, arg := arg }
  | .dumpSubtree upcall addr id subtree len count arg =>
    let re := (s.ribs id).bind fun t => treeNfind env t (env.ptFill subtree len)
    let s := match s.ribs id, re with
      | some t, some re => s.setTree id (reLock t re.ptr)
      | _, _ => s
    s.dumpInsertLog env upcall
      { addr := addr, id := id, aid := subtree.aid, count := count, arg := arg,
        re := re.map (·.ptr), subtree := some (subtree, len) }
  | .dumpR upcall addr => s.ribDumpRLog env upcall addr
  | .terminate arg => (s.dumps.filter fun c => c.arg = arg).map fun c => .done c.addr
  | .reload delete => delete.flatMap s.ribFreeLog
  | .ribNew _ | .processUpdates _ | .peerDelete _ | .adjoutDumpNew _ _ _ => []

/-- One event and its log. -/
def dumpLogStep (env : DumpEnv) (x : RibDumps × List DumpObs) (e : DumpEvent) :
    Option (RibDumps × List DumpObs) :=
  (dumpStep env x.1 e).map fun s => (s, x.2 ++ dumpLog env x.1 e)

/-- The entries for which the callback of a context was called, in this order. -/
def callsOf (addr : Ptr) : List DumpObs → List Ptr
  | [] => []
  | .call a p :: l => if a = addr then p :: callsOf addr l else callsOf addr l
  | _ :: l => callsOf addr l

theorem callsOf_append (addr : Ptr) (l l' : List DumpObs) :
    callsOf addr (l ++ l') = callsOf addr l ++ callsOf addr l' := by
  induction l with
  | nil => rfl
  | cons x l ih =>
    cases x with
    | call a p =>
      rw [List.cons_append, callsOf, callsOf, ih]
      split_ifs <;> rfl
    | done a => exact ih
    | emptied id p => exact ih

theorem callsOf_eq_nil {addr : Ptr} {l : List DumpObs} (h : ∀ p, .call addr p ∉ l) :
    callsOf addr l = [] := by
  induction l with
  | nil => rfl
  | cons x l ih =>
    have hl := ih fun p hp => h p (List.mem_cons_of_mem _ hp)
    cases x with
    | call a p =>
      have hne : a ≠ addr := by
        rintro rfl
        exact h p List.mem_cons_self
      rwa [callsOf, if_neg hne]
    | done a => exact hl
    | emptied id p => exact hl

/-! ## Places of entries -/

variable {env : DumpEnv} {t t' t₁ : RibTree} {p q r : Ptr} {id : ℕ} {pt : PtEntry}
  {s s' s₁ : RibDumps}

/-- The entry at the first address is before the one at the second. -/
def Before (t : RibTree) (p q : Ptr) : Prop := [p, q].Sublist (t.map (·.ptr))

/-- There is an entry with paths at the address. -/
def Alive (t : RibTree) (p : Ptr) (pt : PtEntry) : Prop :=
  ∃ e ∈ t, e.ptr = p ∧ e.pt = pt ∧ e.prefixes ≠ 0

theorem Alive.mem (h : Alive t p pt) : p ∈ t.map (·.ptr) := by
  obtain ⟨e, he, rfl, -, -⟩ := h
  exact List.mem_map_of_mem he

theorem TreeHeld.mem (h : TreeHeld t p) : p ∈ t.map (·.ptr) := by
  obtain ⟨e, he, rfl, -⟩ := h
  exact List.mem_map_of_mem he

theorem Alive.modify {f : DumpEntry → DumpEntry} (h : Alive t p pt)
    (hf : ∀ e, (f e).ptr = e.ptr ∧ (f e).pt = e.pt ∧ (e.prefixes ≠ 0 → (f e).prefixes ≠ 0)) :
    Alive (treeModify t r f) p pt := by
  obtain ⟨e, he, rfl, rfl, hne⟩ := h
  refine ⟨_, List.mem_map_of_mem he, ?_⟩
  split_ifs
  · exact ⟨(hf e).1, (hf e).2.1, (hf e).2.2 hne⟩
  · exact ⟨rfl, rfl, hne⟩

theorem ribRemoveEmpty_eq (h : ribRemoveEmpty t r = some t') :
    t' = t ∨ t' = t.filter (fun e => e.ptr ≠ r) ∧
      ∃ e, treeGet t r = some e ∧ e.prefixes = 0 ∧ e.lock = false := by
  unfold ribRemoveEmpty at h
  obtain ⟨re, hre, h⟩ := Option.bind_eq_some_iff.mp h
  split_ifs at h with hempty
  · unfold ribRemove at h
    rw [hre] at h
    dsimp only [Option.bind_some] at h
    rw [if_neg (by simp [hempty])] at h
    split_ifs at h with hkeep
    · exact Or.inl (Option.some.inj h).symm
    · refine Or.inr ⟨(Option.some.inj h).symm, re, hre, hempty, ?_⟩
      simp only [Bool.or_eq_true, not_or, Bool.not_eq_true] at hkeep
      exact hkeep.1
  · exact Or.inl (Option.some.inj h).symm

theorem Alive.ribRemoveEmpty (h : Alive t p pt) (ok : TreeOk t)
    (hr : ribRemoveEmpty t r = some t') : Alive t' p pt := by
  rcases ribRemoveEmpty_eq hr with rfl | ⟨rfl, e', he', hempty, -⟩
  · exact h
  · obtain ⟨e, he, rfl, rfl, hne⟩ := h
    obtain ⟨hmem', hptr'⟩ := treeGet_eq_some he'
    refine ⟨e, List.mem_filter.mpr ⟨he, ?_⟩, rfl, rfl, hne⟩
    -- the entry that is freed has no paths
    rw [decide_eq_true_eq]
    intro hpr
    apply hne
    rw [ok.eq_of_ptr he hmem' (hpr.trans hptr'.symm)]
    exact hempty

theorem Before.ribRemoveEmpty (h : Before t p q) (hr : ribRemoveEmpty t r = some t')
    (hp : p ∈ t'.map (·.ptr)) (hq : q ∈ t'.map (·.ptr)) : Before t' p q := by
  rcases ribRemoveEmpty_eq hr with rfl | ⟨rfl, -⟩
  · exact h
  · have hne : ∀ x ∈ (t.filter fun e => e.ptr ≠ r).map (·.ptr), x ≠ r := by
      intro x hx
      obtain ⟨e, he, rfl⟩ := List.mem_map.mp hx
      simpa using (List.mem_filter.mp he).2
    have hfilter : (t.filter fun e => e.ptr ≠ r).map (·.ptr) =
        (t.map (·.ptr)).filter (fun x => x ≠ r) := by
      rw [List.filter_map]
      rfl
    unfold Before
    rw [hfilter]
    have := List.Sublist.filter (fun x => decide (x ≠ r)) h
    rwa [List.filter_cons_of_pos (by simpa using hne p hp),
      List.filter_cons_of_pos (by simpa using hne q hq), List.filter_nil] at this

theorem Before.modify {f : DumpEntry → DumpEntry} (hf : ∀ e, (f e).ptr = e.ptr) :
    Before (treeModify t r f) p q ↔ Before t p q := by
  unfold Before
  rw [map_ptr_treeModify hf]

theorem Before.insert {e : DumpEntry} (h : Before t p q) : Before (treeInsert env t e) p q := by
  have hsub : t.Sublist (treeInsert env t e) := by
    conv_lhs => rw [← List.takeWhile_append_dropWhile
      (p := fun x => decide (env.ptPrefixCmp x.pt e.pt = .lt)) (l := t)]
    exact (List.Sublist.refl _).append (List.sublist_cons_self _ _)
  exact h.trans (hsub.map _)

theorem Alive.insert {e : DumpEntry} (h : Alive t p pt) : Alive (treeInsert env t e) p pt := by
  obtain ⟨x, hx, hrest⟩ := h
  refine ⟨x, ?_, hrest⟩
  unfold treeInsert
  rw [← List.takeWhile_append_dropWhile
    (p := fun x => decide (env.ptPrefixCmp x.pt e.pt = .lt)) (l := t)] at hx
  rcases List.mem_append.mp hx with hx | hx
  · exact List.mem_append_left _ hx
  · exact List.mem_append_right _ (List.mem_cons_of_mem _ hx)

/-! ## Changes of paths -/

/-- The destinations of a tree other than the given one. -/
def others (pt : PtEntry) (t : RibTree) : RibTree := t.filter fun e => e.pt ≠ pt

/-- `pt_prefix_cmp` tells all destinations apart. -/
def DumpEnv.Separates (env : DumpEnv) : Prop := ∀ a b, env.ptPrefixCmp a b = .eq ↔ a = b

/-- What `changePrefixes` does to a tree, where `r` is the address of the entry it is about. -/
structure PrefixChange (env : DumpEnv) (del : Bool) (pt : PtEntry) (r : Ptr) (t t' : RibTree) :
    Prop where
  ok : TreeOk t'
  before : ∀ p q, Before t p q → Before t' p q
  alive : ∀ p pt', Alive t p pt' → Alive t' p pt' ∨
    p = r ∧ del = true ∧ ((treeGet t' r).any fun re => re.prefixes = 0) = true
  /-- The entry is the one of the destination, and the others are as before. -/
  others : env.Separates → (∀ e ∈ t', e.ptr = r → e.pt = pt) ∧ others pt t' = others pt t
  pts : env.Separates → (t.map (·.pt)).Nodup → (t'.map (·.pt)).Nodup

theorem map_pt_treeModify {f : DumpEntry → DumpEntry} (hf : ∀ e, (f e).pt = e.pt) :
    (treeModify t r f).map (·.pt) = t.map (·.pt) := by
  unfold treeModify
  rw [List.map_map]
  apply List.map_congr_left
  intro e _
  dsimp only [Function.comp]
  split
  · exact hf e
  · rfl

theorem TreeOk.treeGet_eq {e : DumpEntry} (ok : TreeOk t) (he : e ∈ t) :
    treeGet t e.ptr = some e := by
  cases hget : treeGet t e.ptr with
  | none =>
    have := List.find?_eq_none.mp hget e he
    simp at this
  | some e' =>
    obtain ⟨he', hptr⟩ := treeGet_eq_some hget
    rw [ok.eq_of_ptr he' he hptr]

theorem mem_treeModify {f : DumpEntry → DumpEntry} {e : DumpEntry}
    (h : e ∈ treeModify t r f) : ∃ e₀ ∈ t, e = if e₀.ptr = r then f e₀ else e₀ := by
  obtain ⟨e₀, he₀, rfl⟩ := List.mem_map.mp h
  exact ⟨e₀, he₀, rfl⟩

/-- The change of an entry of the destination leaves the other destinations alone. -/
theorem others_modify {f : DumpEntry → DumpEntry} (hf : ∀ e, (f e).pt = e.pt)
    (hr : ∀ e ∈ t, e.ptr = r → e.pt = pt) : others pt (treeModify t r f) = others pt t := by
  unfold others treeModify
  induction t with
  | nil => rfl
  | cons e t ih =>
    have iht := ih fun x hx => hr x (List.mem_cons_of_mem _ hx)
    rw [List.map_cons]
    by_cases he : e.ptr = r
    · have hpt := hr e List.mem_cons_self he
      rw [if_pos he, List.filter_cons_of_neg (by simp [hf, hpt]),
        List.filter_cons_of_neg (by simp [hpt]), iht]
    · rw [if_neg he, List.filter_cons, List.filter_cons, iht]

/-- The number of paths of an entry changes. -/
theorem PrefixChange.modify {re : DumpEntry} {f : ℕ → ℕ} {del : Bool} (ok : TreeOk t)
    (hfind : treeFind env t pt = some re) (hf : del = false → ∀ n, n ≠ 0 → f n ≠ 0) :
    PrefixChange env del pt re.ptr t
      (treeModify t re.ptr fun e => { e with prefixes := f e.prefixes }) where
  ok := ok.modify fun _ => rfl
  before p q h := (Before.modify (f := fun e => { e with prefixes := f e.prefixes })
    fun _ => rfl).mpr h
  alive p pt' h := by
    obtain ⟨e, he, rfl, rfl, hne⟩ := h
    by_cases hzero : e.ptr = re.ptr ∧ f e.prefixes = 0
    -- an entry that has no path left is the one that was changed
    · right
      refine ⟨hzero.1, ?_, ?_⟩
      · by_contra hdel
        exact hf (by simpa using hdel) _ hne hzero.2
      · have ok' : TreeOk (treeModify t re.ptr fun e => { e with prefixes := f e.prefixes }) :=
          ok.modify fun _ => rfl
        have hmem := List.mem_map_of_mem (f := fun e : DumpEntry =>
          if e.ptr = re.ptr then { e with prefixes := f e.prefixes } else e) he
        rw [if_pos hzero.1] at hmem
        have hget := ok'.treeGet_eq hmem
        rw [← hzero.1] at hget ⊢
        rw [hget]
        simp [hzero.2]
    · left
      refine ⟨_, List.mem_map_of_mem he, ?_⟩
      split_ifs with hp
      · exact ⟨rfl, rfl, fun h0 => hzero ⟨hp, h0⟩⟩
      · exact ⟨rfl, rfl, hne⟩
  others henv := by
    have hpt : re.pt = pt := by
      have := List.find?_some hfind
      exact ((henv _ _).mp (by simpa using this)).symm
    have hr : ∀ e ∈ t, e.ptr = re.ptr → e.pt = pt := by
      intro e he hptr
      rw [ok.eq_of_ptr he (List.mem_of_find?_eq_some hfind) hptr, hpt]
    refine ⟨fun e he hptr => ?_, others_modify (fun _ => rfl) hr⟩
    obtain ⟨e₀, he₀, rfl⟩ := mem_treeModify he
    split_ifs at hptr ⊢
    · exact hr e₀ he₀ hptr
    · exact hr e₀ he₀ hptr
  pts _ h := by
    have hmap := map_pt_treeModify (t := t) (r := re.ptr)
      (f := fun e => { e with prefixes := f e.prefixes }) fun _ => rfl
    rwa [hmap]

/-- There is a new entry. -/
theorem PrefixChange.insert {del : Bool} (ok : TreeOk t) (hfresh : r ∉ t.map (·.ptr))
    (hnone : treeFind env t pt = none) :
    PrefixChange env del pt r t (treeInsert env t { ptr := r, pt := pt, prefixes := 1 }) where
  ok := (treeInsert_keeps hfresh).ok ok
  before _ _ := Before.insert
  alive _ _ h := Or.inl h.insert
  others _ := by
    constructor
    · intro e he hptr
      rcases List.mem_append.mp he with he | he
      · exact absurd (List.mem_map_of_mem (List.takeWhile_subset _ he)) (hptr ▸ hfresh)
      · rcases List.mem_cons.mp he with rfl | he
        · rfl
        · exact absurd (List.mem_map_of_mem (List.dropWhile_subset _ he)) (hptr ▸ hfresh)
    · unfold Dump.others treeInsert
      rw [List.filter_append, List.filter_cons_of_neg (by simp), ← List.filter_append,
        List.takeWhile_append_dropWhile]
  pts henv h := by
    have hperm : (treeInsert env t { ptr := r, pt := pt, prefixes := 1 }).Perm
        ({ ptr := r, pt := pt, prefixes := 1 } :: t) := by
      unfold treeInsert
      apply List.perm_middle.trans
      rw [List.takeWhile_append_dropWhile]
    rw [(hperm.map _).nodup_iff, List.map_cons, List.nodup_cons]
    refine ⟨fun hmem => ?_, h⟩
    obtain ⟨e, he, hpt⟩ := List.mem_map.mp hmem
    have := List.find?_eq_none.mp hnone e he
    simp only [decide_eq_true_eq] at this
    exact this ((henv _ _).mpr hpt.symm)

/-- `changePrefixes` changes one tree. -/
theorem changePrefixes_spec {op : RibDumps.EntryOp} (hok : TreesOk s)
    (h : s.changePrefixes env id pt op = some (s', r)) :
    ∃ t t', s.ribs id = some t ∧ s'.ribs id = some t' ∧
      (∀ id' ≠ id, s'.ribs id' = s.ribs id') ∧ PrefixChange env op.del pt r t t' := by
  unfold RibDumps.changePrefixes at h
  obtain ⟨t, ht, h⟩ := Option.bind_eq_some_iff.mp h
  have ok := hok id t ht
  have hset : ∀ t', (s.setTree id t').ribs id = some t' ∧
      ∀ id' ≠ id, (s.setTree id t').ribs id' = s.ribs id' := by
    intro t'
    refine ⟨by rw [ribs_setTree, if_pos rfl], fun id' hid => ?_⟩
    rw [ribs_setTree, if_neg hid]
  split at h
  · cases h
  -- a path was removed, or was not there to remove
  · next re _ hfind =>
    split_ifs at h with hdel hempty
    · cases h
      exact ⟨t, _, ht, (hset _).1, (hset _).2,
        PrefixChange.modify (f := fun n => n - 1) ok hfind (by simp [hdel])⟩
    · cases h
      have hid : (treeModify t re.ptr fun e => { e with prefixes := e.prefixes }) = t := by
        unfold treeModify
        simp
      refine ⟨t, t, ht, ht, fun _ _ => rfl, ?_⟩
      have hc : PrefixChange env op.del pt re.ptr t _ :=
        PrefixChange.modify (f := fun n => n) ok hfind fun _ _ hn => hn
      rwa [hid] at hc
  -- a path was added to the entry
  · next re _ hfind =>
    cases h
    exact ⟨t, _, ht, (hset _).1, (hset _).2,
      PrefixChange.modify (f := fun n => n + 1) ok hfind (by simp)⟩
  -- or the entry is new
  · next r' _ hnone =>
    split_ifs at h with hfresh
    cases h
    exact ⟨t, _, ht, (hset _).1, (hset _).2, PrefixChange.insert ok hfresh hnone⟩

theorem ribPqEnqueue_spec {peer : PeerId} (h : s.ribPqEnqueue id r peer = some s') :
    ∃ t t', s.ribs id = some t ∧ s'.ribs id = some t' ∧
      (∀ id' ≠ id, s'.ribs id' = s.ribs id') ∧
      (t' = t ∨ t' = treeModify t r fun e => { e with queued := true }) := by
  unfold RibDumps.ribPqEnqueue at h
  obtain ⟨t, ht, h⟩ := Option.bind_eq_some_iff.mp h
  obtain ⟨re, -, h⟩ := Option.bind_eq_some_iff.mp h
  split_ifs at h
  · cases h
    exact ⟨t, t, ht, ht, fun _ _ => rfl, Or.inl rfl⟩
  · cases h
    refine ⟨t, _, ht, by rw [ribs_setTree, if_pos rfl], fun id' hid => ?_, Or.inr rfl⟩
    rw [ribs_setTree, if_neg hid]

/-- What one change of paths does to a tree: entries keep their order, they stay unless they
    lose their last path, and the other destinations are as before. -/
structure EntryChange (env : DumpEnv) (id : ℕ) (pt : PtEntry) (log : List DumpObs)
    (t t' : RibTree) : Prop where
  before : ∀ p q, Before t p q → p ∈ t'.map (·.ptr) → q ∈ t'.map (·.ptr) → Before t' p q
  alive : ∀ p pt', Alive t p pt' → .emptied id p ∈ log ∨ Alive t' p pt'
  others : env.Separates → others pt t' = others pt t
  pts : env.Separates → (t.map (·.pt)).Nodup → (t'.map (·.pt)).Nodup

theorem ribRemoveEmpty_sublist (h : ribRemoveEmpty t r = some t') : t'.Sublist t := by
  rcases ribRemoveEmpty_eq h with rfl | ⟨rfl, -⟩
  · exact List.Sublist.refl _
  · exact List.filter_sublist

theorem ribRemoveEmpty_others (hr : ∀ e ∈ t, e.ptr = r → e.pt = pt)
    (h : ribRemoveEmpty t r = some t') : others pt t' = others pt t := by
  rcases ribRemoveEmpty_eq h with rfl | ⟨rfl, -⟩
  · rfl
  · unfold others
    rw [List.filter_filter]
    apply List.filter_congr
    intro e he
    by_cases hpt : e.pt = pt
    · simp [hpt]
    · have hne : e.ptr ≠ r := fun hptr => hpt (hr e he hptr)
      simp [hpt, hne]

/-- An operation on one tree leaves the others and does to it what its log says. -/
theorem entryOp_place {op : RibDumps.EntryOp} (hok : TreesOk s)
    (h : s.entryOp env id pt op = some s') :
    ∃ t t', s.ribs id = some t ∧ s'.ribs id = some t' ∧
      (∀ id' ≠ id, s'.ribs id' = s.ribs id') ∧
      EntryChange env id pt (s.entryOpLog env id pt op) t t' := by
  unfold RibDumps.entryOp at h
  obtain ⟨⟨s₁, r⟩, h₁, h⟩ := Option.bind_eq_some_iff.mp h
  obtain ⟨s₂, h₂, h⟩ := Option.bind_eq_some_iff.mp h
  obtain ⟨t, t₁, ht, ht₁, hsame₁, hc⟩ := changePrefixes_spec hok h₁
  -- the log names the entry that is empty now
  have hlog : op.del = true → ((treeGet t₁ r).any fun re => re.prefixes = 0) = true →
      .emptied id r ∈ s.entryOpLog env id pt op := by
    intro hdel hempty
    unfold RibDumps.entryOpLog
    rw [h₁]
    dsimp only
    rw [ht₁, Option.bind_some, if_pos ⟨hdel, hempty⟩]
    exact List.mem_singleton_self _
  have halive : ∀ p pt', Alive t p pt' →
      .emptied id p ∈ s.entryOpLog env id pt op ∨ Alive t₁ p pt' := by
    intro p pt' hp
    rcases hc.alive p pt' hp with halive | ⟨rfl, hdel, hempty⟩
    · exact Or.inr halive
    · exact Or.inl (hlog hdel hempty)
  -- the entry is queued
  obtain ⟨t₂, ht₂, hsame₂, hq⟩ : ∃ t₂, s₂.ribs id = some t₂ ∧
      (∀ id' ≠ id, s₂.ribs id' = s₁.ribs id') ∧
      (t₂ = t₁ ∨ t₂ = treeModify t₁ r fun e => { e with queued := true }) := by
    cases hen : op.enqueue with
    | none =>
      rw [hen] at h₂
      cases h₂
      exact ⟨t₁, ht₁, fun _ _ => rfl, Or.inl rfl⟩
    | some peer =>
      rw [hen] at h₂
      obtain ⟨t₀, t₂, ht₀, ht₂, hsame, hq⟩ := ribPqEnqueue_spec h₂
      obtain rfl : t₁ = t₀ := Option.some.inj (ht₁.symm.trans ht₀)
      exact ⟨t₂, ht₂, hsame, hq⟩
  -- queueing changes a flag only
  have hc₂ : TreeOk t₂ ∧ (∀ p q, Before t₁ p q → Before t₂ p q) ∧
      (∀ p pt', Alive t₁ p pt' → Alive t₂ p pt') ∧ t₂.map (·.pt) = t₁.map (·.pt) ∧
      (env.Separates → (∀ e ∈ t₂, e.ptr = r → e.pt = pt) ∧ others pt t₂ = others pt t) := by
    rcases hq with rfl | rfl
    · exact ⟨hc.ok, fun _ _ hb => hb, fun _ _ ha => ha, rfl, hc.others⟩
    · refine ⟨hc.ok.modify fun _ => rfl, fun p q hb => (Before.modify (f := fun e =>
        { e with queued := true }) fun _ => rfl).mpr hb, fun p pt' ha => ha.modify fun e =>
          ⟨rfl, rfl, fun hne => hne⟩, map_pt_treeModify fun _ => rfl, fun henv => ?_⟩
      obtain ⟨hr, hothers⟩ := hc.others henv
      refine ⟨fun e he hptr => ?_, (others_modify (f := fun e => { e with queued := true })
        (fun _ => rfl) hr).trans hothers⟩
      obtain ⟨e₀, he₀, rfl⟩ := mem_treeModify he
      split_ifs at hptr ⊢
      · exact hr e₀ he₀ hptr
      · exact hr e₀ he₀ hptr
  obtain ⟨ok₂, hbefore₂, halive₂, hpts₂, hothers₂⟩ := hc₂
  split_ifs at h
  · -- the entry is freed if it is empty
    obtain ⟨t₂', ht₂', h⟩ := Option.bind_eq_some_iff.mp h
    obtain rfl : t₂ = t₂' := Option.some.inj (ht₂.symm.trans ht₂')
    obtain ⟨t', hr, rfl⟩ := Option.map_eq_some_iff.mp h
    refine ⟨t, t', ht, by rw [ribs_setTree, if_pos rfl], fun id' hid => ?_, ?_⟩
    · rw [ribs_setTree, if_neg hid, hsame₂ id' hid, hsame₁ id' hid]
    · refine ⟨fun p q hb hp hq => ?_, fun p pt' ha => ?_, fun henv => ?_, fun henv hnd => ?_⟩
      · exact (hbefore₂ p q (hc.before p q hb)).ribRemoveEmpty hr hp hq
      · exact (halive p pt' ha).imp_right fun ha => (halive₂ p pt' ha).ribRemoveEmpty ok₂ hr
      · obtain ⟨hrpt, hothers⟩ := hothers₂ henv
        exact (ribRemoveEmpty_others hrpt hr).trans hothers
      · have hnd₂ := hc.pts henv hnd
        rw [← hpts₂] at hnd₂
        exact hnd₂.sublist ((ribRemoveEmpty_sublist hr).map _)
  -- the entry stays
  · cases h
    refine ⟨t, t₂, ht, ht₂, fun id' hid => (hsame₂ id' hid).trans (hsame₁ id' hid), ?_⟩
    exact ⟨fun p q hb _ _ => hbefore₂ p q (hc.before p q hb), fun p pt' ha =>
      (halive p pt' ha).imp_right (halive₂ p pt'), fun henv => (hothers₂ henv).2,
      fun henv hnd => hpts₂ ▸ hc.pts henv hnd⟩

/-- The change of any tree, with the locks. -/
theorem entryOp_tree {id' : ℕ} {op : RibDumps.EntryOp} (hok : TreesOk s)
    (h : s.entryOp env id' pt op = some s') (ht : s.ribs id = some t) :
    ∃ t', s'.ribs id = some t' ∧ (∀ q, TreeHeld t q → TreeHeld t' q) ∧
      EntryChange env id pt (s.entryOpLog env id' pt op) t t' := by
  obtain ⟨t₀, t', ht₀, ht', hsame, hc⟩ := entryOp_place hok h
  by_cases hid : id = id'
  · subst hid
    obtain rfl : t = t₀ := Option.some.inj (ht.symm.trans ht₀)
    refine ⟨t', ht', fun q hq => ?_, hc⟩
    obtain ⟨t'', ht'', hheld⟩ := (entryOp_keeps h).held hok id q ⟨t, ht, hq⟩
    rwa [Option.some.inj (ht'.symm.trans ht'')]
  · exact ⟨t, by rw [hsame id hid, ht], fun q hq => hq,
      fun _ _ hb _ _ => hb, fun _ _ ha => Or.inr ha, fun _ => rfl, fun _ hnd => hnd⟩

/-- The entry at the address is not freed by the callback for a destination: it is locked or
    the entry of another destination. -/
def Stays (env : DumpEnv) (pt : PtEntry) (t : RibTree) (q : Ptr) : Prop :=
  TreeHeld t q ∨ env.Separates ∧ q ∈ (others pt t).map (·.ptr)

theorem Stays.mem (h : Stays env pt t q) : q ∈ t.map (·.ptr) := by
  rcases h with h | ⟨-, h⟩
  · exact h.mem
  · exact (List.filter_sublist.map _).subset h

/-- What a callback does to a tree: an entry that does not lose its last path keeps its place
    relative to the entries that stay. -/
structure CallChange (env : DumpEnv) (id : ℕ) (pt : PtEntry) (log : List DumpObs)
    (t t' : RibTree) : Prop where
  held : ∀ q, TreeHeld t q → TreeHeld t' q
  others : env.Separates → others pt t' = others pt t
  alive : ∀ p pt', Alive t p pt' → .emptied id p ∉ log → Alive t' p pt'
  before : ∀ p q pt', Alive t p pt' → .emptied id p ∉ log → Stays env pt t q →
    (Before t p q → Before t' p q) ∧ (Before t q p → Before t' q p)
  pts : env.Separates → (t.map (·.pt)).Nodup → (t'.map (·.pt)).Nodup

/-- A list of operations does to each tree what the joined log says. -/
theorem ribCall_tree {ops : List (ℕ × RibDumps.EntryOp)} (hok : TreesOk s)
    (h : ops.foldlM (fun s x => s.entryOp env x.1 pt x.2) s = some s') (ht : s.ribs id = some t) :
    ∃ t', s'.ribs id = some t' ∧ CallChange env id pt (RibDumps.opsLog env pt ops s) t t' := by
  induction ops generalizing s t with
  | nil =>
    cases h
    exact ⟨t, ht, fun _ hq => hq, fun _ => rfl, fun _ _ ha _ => ha,
      fun _ _ _ _ _ _ => ⟨fun hb => hb, fun hb => hb⟩, fun _ hnd => hnd⟩
  | cons x ops ih =>
    rw [List.foldlM_cons] at h
    obtain ⟨s₁, h₁, h⟩ := Option.bind_eq_some_iff.mp h
    obtain ⟨t₁, ht₁, hheld, hc⟩ := entryOp_tree hok h₁ ht
    obtain ⟨t', ht', hc'⟩ := ih ((entryOp_keeps h₁).ok hok) h ht₁
    have halive : ∀ p pt', Alive t p pt' → .emptied id p ∉ s.entryOpLog env x.1 pt x.2 →
        Alive t₁ p pt' := fun p pt' ha hlog => (hc.alive p pt' ha).resolve_left hlog
    have hstays : ∀ q, Stays env pt t q → Stays env pt t₁ q := by
      intro q hq
      refine hq.imp (hheld q) ?_
      rintro ⟨henv, hq⟩
      exact ⟨henv, by rwa [hc.others henv]⟩
    refine ⟨t', ht', fun q hq => hc'.held q (hheld q hq),
      fun henv => (hc'.others henv).trans (hc.others henv), fun p pt' ha hlog => ?_,
      fun p q pt' ha hlog hq => ?_, fun henv hnd => hc'.pts henv (hc.pts henv hnd)⟩
    · rw [RibDumps.opsLog, h₁, List.mem_append, not_or] at hlog
      exact hc'.alive p pt' (halive p pt' ha hlog.1) hlog.2
    · rw [RibDumps.opsLog, h₁, List.mem_append, not_or] at hlog
      have ha₁ := halive p pt' ha hlog.1
      obtain ⟨hpq, hqp⟩ := hc'.before p q pt' ha₁ hlog.2 (hstays q hq)
      have hmem := (hstays q hq).mem
      exact ⟨fun hb => hpq (hc.before p q hb ha₁.mem hmem),
        fun hb => hqp (hc.before q p hb hmem ha₁.mem)⟩

end Bgpd.Rde.Dump
