import Bgpd.Rde.DumpLog

/-!
# Walks Are Complete

A context visits the entries of its RIB in rounds, and between two rounds the tree changes.
An entry that keeps a path from the creation of the context to its end is ahead of the entry
at which the context is paused as long as the callback was not called for it, and behind it
afterwards.

## Main results

- `dumpWalk_own`: one round of the context
- `Foreign`: what all other events leave alone
- `rib_dump_exactly_once`: the callback is called once for every such entry
-/

namespace Bgpd.Rde.Dump

open Bgpd.Lib

variable {env : DumpEnv} {t t' t₁ : RibTree} {p q r : Ptr} {id : ℕ} {pt : PtEntry}
  {s s' s₁ : RibDumps} {addr : Ptr}

/-! ## The order of addresses -/

theorem pair_sublist_left {l r : List Ptr} (hnd : (l ++ q :: r).Nodup) :
    [p, q].Sublist (l ++ q :: r) ↔ p ∈ l := by
  obtain ⟨-, hr, hdisj⟩ := List.nodup_append'.mp hnd
  have hqr : q ∉ r := (List.nodup_cons.mp hr).1
  have hql : q ∉ l := fun h => hdisj h List.mem_cons_self
  constructor
  · intro h
    by_contra hp
    -- neither of the two is in the first part
    obtain ⟨l₁, l₂, heq, h₁, h₂⟩ := List.sublist_append_iff.mp h
    cases l₁ with
    | nil =>
      rw [List.nil_append] at heq
      subst heq
      cases h₂ with
      | cons _ h₂ => exact hqr (h₂.subset (by simp))
      | cons_cons _ h₂ => exact hqr (h₂.subset (by simp))
    | cons a l₁ =>
      obtain ⟨rfl, -⟩ := List.cons.inj heq
      exact hp (h₁.subset List.mem_cons_self)
  · intro hp
    exact (List.singleton_sublist.mpr hp).append
      (List.singleton_sublist.mpr (List.mem_cons_self (a := q) (l := r)))

theorem pair_sublist_right {l r : List Ptr} (hnd : (l ++ q :: r).Nodup) :
    [q, p].Sublist (l ++ q :: r) ↔ p ∈ r := by
  have hrev : (r.reverse ++ q :: l.reverse).Nodup := by
    have := List.nodup_reverse.mpr hnd
    rwa [List.reverse_append, List.reverse_cons, List.append_assoc, List.singleton_append] at this
  have hleft : [p, q].Sublist (r.reverse ++ q :: l.reverse) ↔ p ∈ r :=
    (pair_sublist_left hrev).trans List.mem_reverse
  rw [← hleft, ← List.reverse_sublist]
  simp

/-! ## Rounds -/

/-- Where an entry is in a walk that called the callback for it `n` times: ahead of the entry
    at which the walk paused or behind it, and behind the end if the walk is over. -/
def Placed (t : RibTree) (p : Ptr) (n : ℕ) : Option Ptr → Prop
  | none => n = 1
  | some q => (p = q ∨ Before t q p) ∧ n = 0 ∨ Before t p q ∧ n = 1

/-- No two entries of a tree have the same destination. -/
def PtsOk (s : RibDumps) : Prop := ∀ id t, s.ribs id = some t → (t.map (·.pt)).Nodup

theorem opsLog_emptied {x : DumpObs} {ops : List (ℕ × RibDumps.EntryOp)}
    (h : x ∈ RibDumps.opsLog env pt ops s) : ∃ id p, x = .emptied id p := by
  induction ops generalizing s with
  | nil => cases h
  | cons y ops ih =>
    rw [RibDumps.opsLog] at h
    rcases List.mem_append.mp h with h | h
    · unfold RibDumps.entryOpLog at h
      split at h
      · cases h
      · split_ifs at h
        · exact ⟨_, _, List.mem_singleton.mp h⟩
        · cases h
    · split at h
      · cases h
      · exact ih h

theorem callsOf_opsLog (addr : Ptr) (ops : List (ℕ × RibDumps.EntryOp)) :
    callsOf addr (RibDumps.opsLog env pt ops s) = [] := by
  apply callsOf_eq_nil
  intro p hp
  obtain ⟨_, _, h⟩ := opsLog_emptied hp
  cases h

theorem ribCall_ptsOk (henv : env.Separates) {upcall : RibDumps.Upcall} (hok : TreesOk s)
    (hpts : PtsOk s) (h : s.ribCall env upcall pt = some s') : PtsOk s' := by
  intro id t' ht'
  have hsome := (ribCall_keeps h).ribs id
  rw [ht', Option.isSome_some] at hsome
  obtain ⟨t, ht⟩ := Option.isSome_iff_exists.mp hsome.symm
  obtain ⟨t₁, ht₁, hc⟩ := ribCall_tree hok h ht
  rw [Option.some.inj (ht'.symm.trans ht₁)]
  exact hc.pts henv (hpts id t ht)

/-- Of the addresses in a tree, those of other destinations are those of other entries. -/
theorem map_ptr_others {re : DumpEntry} (ok : TreeOk t) (hpts : (t.map (·.pt)).Nodup)
    (hre : re ∈ t) :
    (others re.pt t).map (·.ptr) = (t.map (·.ptr)).filter fun x => x ≠ re.ptr := by
  unfold others
  rw [List.filter_map]
  congr 1
  apply List.filter_congr
  intro e he
  have hiff : e.pt = re.pt ↔ e.ptr = re.ptr := by
    constructor
    · intro h
      rw [List.inj_on_of_nodup_map hpts he hre h]
    · intro h
      rw [ok.eq_of_ptr he hre h]
  simp [hiff]

/-- One round of a context that does not walk a subtree. An entry that does not lose its last
    path is visited if it is among those to visit, unless the round pauses before. -/
theorem dumpWalk_own (henv : env.Separates) {upcall : RibDumps.Upcall} {ctx : RibContext}
    (hsub : ctx.subtree = none) {todo : List Ptr} {i n : ℕ} {paused : Option Ptr}
    (h : RibDumps.dumpWalk env upcall ctx todo i s = some (s', paused)) (hok : TreesOk s)
    (hpts : PtsOk s) (ht : s.ribs ctx.id = some t) (htodo : todo.Sublist (t.map (·.ptr)))
    (ha : Alive t p pt) (haid : ctx.aid = none ∨ ctx.aid = some pt.aid)
    (hlog : .emptied ctx.id p ∉ RibDumps.walkLog env upcall ctx todo i s)
    (hplace : p ∈ todo ∧ n = 0 ∨ p ∉ todo ∧ (∀ x ∈ todo, Before t p x) ∧ n = 1) :
    ∃ t', s'.ribs ctx.id = some t' ∧ Alive t' p pt ∧
      Placed t' p (n + (callsOf ctx.addr (RibDumps.walkLog env upcall ctx todo i s)).count p)
        paused := by
  induction todo generalizing i n s t with
  | nil =>
    cases h
    rcases hplace with ⟨hp, -⟩ | ⟨-, -, rfl⟩
    · cases hp
    · exact ⟨t, ht, ha, rfl⟩
  | cons x todo ih =>
    rw [RibDumps.dumpWalk, ht] at h
    rw [RibDumps.walkLog, ht] at hlog ⊢
    obtain ⟨_, ⟨⟩, h⟩ := Option.bind_eq_some_iff.mp h
    obtain ⟨re, hre, h⟩ := Option.bind_eq_some_iff.mp h
    obtain ⟨hmem, rfl⟩ := treeGet_eq_some hre
    simp only [Option.bind_some, hre] at hlog ⊢
    have ok := hok _ _ ht
    have hnd : (re.ptr :: todo).Nodup := ok.sublist htodo
    have hx : re.ptr ∉ todo := (List.nodup_cons.mp hnd).1
    -- an entry that is passed over is not the one in question
    have hskip : (re.prefixes = 0 ∨ ctx.aid ≠ none ∧ ctx.aid ≠ some re.pt.aid) → p ≠ re.ptr := by
      rintro hsk rfl
      obtain ⟨e, he, hptr, rfl, hne⟩ := ha
      rw [ok.eq_of_ptr he hmem hptr] at hne haid
      rcases hsk with hzero | ⟨h₁, h₂⟩
      · exact hne hzero
      · exact haid.elim h₁ h₂
    -- any other entry is where it was, ahead or behind
    have hrest : p ≠ re.ptr →
        (p ∈ todo ∧ n = 0 ∨ p ∉ todo ∧ (∀ x ∈ todo, Before t p x) ∧ n = 1) := by
      intro hne
      rcases hplace with ⟨hp, hn⟩ | ⟨hp, hb, hn⟩
      · exact Or.inl ⟨(List.mem_cons.mp hp).resolve_left hne, hn⟩
      · exact Or.inr ⟨fun hp' => hp (List.mem_cons_of_mem _ hp'),
          fun x hx => hb x (List.mem_cons_of_mem _ hx), hn⟩
    have htodo' : todo.Sublist (t.map (·.ptr)) := (List.sublist_cons_self _ _).trans htodo
    split_ifs at h hlog ⊢ with hempty haid' hs hpause
    · exact ih h hok hpts ht htodo' ha hlog (hrest (hskip (Or.inl hempty)))
    · exact ih h hok hpts ht htodo' ha hlog (hrest (hskip (Or.inr haid')))
    · rw [hsub] at hs
      cases hs
    · -- the walk pauses here
      cases h
      have hreset := ribs_setTree s ctx.id ctx.id (reLock t re.ptr)
      rw [if_pos rfl] at hreset
      have hlock : ∀ a b, Before (reLock t re.ptr) a b ↔ Before t a b := fun a b =>
        Before.modify (f := fun e => { e with lock := true }) fun _ => rfl
      refine ⟨_, hreset, ha.modify fun e => ⟨rfl, rfl, fun hne => hne⟩, ?_⟩
      rw [callsOf, List.count_nil, Nat.add_zero]
      rcases hplace with ⟨hp, hn⟩ | ⟨hp, hb, hn⟩
      · refine Or.inl ⟨?_, hn⟩
        rcases List.mem_cons.mp hp with rfl | hp
        · exact Or.inl rfl
        · have hpair : [re.ptr, p].Sublist (re.ptr :: todo) :=
            (List.singleton_sublist.mpr hp).cons_cons _
          exact Or.inr ((hlock _ _).mpr (hpair.trans htodo))
      · exact Or.inr ⟨(hlock _ _).mpr (hb _ List.mem_cons_self), hn⟩
    · obtain ⟨s₁, h₁, h⟩ := Option.bind_eq_some_iff.mp h
      have hk := ribCall_keeps h₁
      obtain ⟨t₁, ht₁, hc⟩ := ribCall_tree hok h₁ ht
      rw [h₁] at hlog ⊢
      rw [List.mem_cons, List.mem_append, not_or, not_or] at hlog
      -- the entries behind this one are not touched by the callback
      have hstays : todo.Sublist ((others re.pt t).map (·.ptr)) := by
        rw [map_ptr_others ok (hpts _ _ ht) hmem]
        have hfilter := htodo'.filter fun x => decide (x ≠ re.ptr)
        rwa [List.filter_eq_self.mpr fun y hy => by
          simpa using fun h : y = re.ptr => hx (h ▸ hy)] at hfilter
      have htodo₁ : todo.Sublist (t₁.map (·.ptr)) := by
        rw [← hc.others henv] at hstays
        exact hstays.trans (List.filter_sublist.map _)
      have hb₁ : ∀ x ∈ todo, Before t p x → Before t₁ p x := fun x hx =>
        (hc.before p x pt ha hlog.2.1 (Or.inr ⟨henv, hstays.subset hx⟩)).1
      have hplace₁ : p ∈ todo ∧ n + (if re.ptr = p then 1 else 0) = 0 ∨
          p ∉ todo ∧ (∀ x ∈ todo, Before t₁ p x) ∧ n + (if re.ptr = p then 1 else 0) = 1 := by
        by_cases hp : re.ptr = p
        · subst hp
          have hn : n = 0 := by
            rcases hplace with ⟨-, hn⟩ | ⟨hp, -⟩
            · exact hn
            · exact absurd List.mem_cons_self hp
          refine Or.inr ⟨hx, fun y hy => hb₁ y hy ?_, by simp [hn]⟩
          have hpair : [re.ptr, y].Sublist (re.ptr :: todo) :=
            (List.singleton_sublist.mpr hy).cons_cons _
          exact hpair.trans htodo
        · rw [if_neg hp, Nat.add_zero]
          exact (hrest fun h => hp h.symm).imp_right fun hother =>
            ⟨hother.1, fun y hy => hb₁ y hy (hother.2.1 y hy), hother.2.2⟩
      obtain ⟨t', ht', ha', hp'⟩ := ih h (hk.ok hok) (ribCall_ptsOk henv hok hpts h₁) ht₁ htodo₁
        (hc.alive p pt ha hlog.2.1) hlog.2.2 hplace₁
      refine ⟨t', ht', ha', ?_⟩
      rw [callsOf, if_pos rfl, callsOf_append, callsOf_opsLog, List.nil_append, List.count_cons]
      rw [Nat.add_assoc, Nat.add_comm (if re.ptr = p then 1 else 0)] at hp'
      simpa using hp'

/-! ## Other events -/

/-- What happens to the tree of the RIB while the context is paused at `re`: an entry that does
    not lose its last path stays, and it stays on its side of the entry of the context. -/
structure Change (id : ℕ) (re : Option Ptr) (log : List DumpObs) (t t' : RibTree) : Prop where
  held : ∀ q ∈ re, TreeHeld t q → TreeHeld t' q
  alive : ∀ p pt, Alive t p pt → .emptied id p ∉ log → Alive t' p pt
  before : ∀ p pt, Alive t p pt → .emptied id p ∉ log → ∀ q ∈ re, TreeHeld t q →
    (Before t p q → Before t' p q) ∧ (Before t q p → Before t' q p)

variable {re : Option Ptr} {log log' : List DumpObs}

theorem Change.refl (t : RibTree) : Change id re log t t :=
  ⟨fun _ _ h => h, fun _ _ h _ => h, fun _ _ _ _ _ _ _ => ⟨fun h => h, fun h => h⟩⟩

theorem Change.trans (h : Change id re log t t₁) (h' : Change id re log' t₁ t') :
    Change id re (log ++ log') t t' where
  held q hq hheld := h'.held q hq (h.held q hq hheld)
  alive p pt ha hlog := by
    rw [List.mem_append, not_or] at hlog
    exact h'.alive p pt (h.alive p pt ha hlog.1) hlog.2
  before p pt ha hlog q hq hheld := by
    rw [List.mem_append, not_or] at hlog
    obtain ⟨hpq, hqp⟩ := h.before p pt ha hlog.1 q hq hheld
    obtain ⟨hpq', hqp'⟩ :=
      h'.before p pt (h.alive p pt ha hlog.1) hlog.2 q hq (h.held q hq hheld)
    exact ⟨fun hb => hpq' (hpq hb), fun hb => hqp' (hqp hb)⟩

/-- Flags and queues of entries change. -/
theorem Change.modify {f : DumpEntry → DumpEntry}
    (hf : ∀ e, (f e).ptr = e.ptr ∧ (f e).pt = e.pt ∧ (f e).prefixes = e.prefixes)
    (hlock : r ∉ re ∨ ∀ e, e.lock = true → (f e).lock = true) :
    Change id re log t (treeModify t r f) where
  held q hq hheld := by
    refine hheld.modify (fun e => (hf e).1) (hlock.imp_left fun hr => ?_)
    rintro rfl
    exact hr hq
  alive p pt ha _ := ha.modify fun e =>
    ⟨(hf e).1, (hf e).2.1, fun hne => by rwa [(hf e).2.2]⟩
  before p pt _ _ q _ _ :=
    ⟨(Before.modify fun e => (hf e).1).mpr, (Before.modify fun e => (hf e).1).mpr⟩

/-- An entry that is empty is freed. -/
theorem Change.ribRemoveEmpty (ok : TreeOk t) (h : ribRemoveEmpty t r = some t') :
    Change id re log t t' where
  held q _ hheld := (ribRemoveEmpty_keeps h).held ok q hheld
  alive p pt ha _ := ha.ribRemoveEmpty ok h
  before p pt ha _ q _ hheld := by
    have hp := (ha.ribRemoveEmpty ok h).mem
    have hq := ((ribRemoveEmpty_keeps h).held ok q hheld).mem
    exact ⟨fun hb => hb.ribRemoveEmpty h hp hq, fun hb => hb.ribRemoveEmpty h hq hp⟩

theorem EntryChange.change (hc : EntryChange env id pt log t t')
    (hheld : ∀ q, TreeHeld t q → TreeHeld t' q) : Change id re log t t' where
  held q _ := hheld q
  alive p pt' ha hlog := (hc.alive p pt' ha).resolve_left hlog
  before p pt' ha hlog q _ hq := by
    have hp := ((hc.alive p pt' ha).resolve_left hlog).mem
    exact ⟨fun hb => hc.before p q hb hp (hheld q hq).mem,
      fun hb => hc.before q p hb (hheld q hq).mem hp⟩

theorem CallChange.change (hc : CallChange env id pt log t t') : Change id re log t t' where
  held q _ := hc.held q
  alive := hc.alive
  before p pt' ha hlog q _ hq := hc.before p q pt' ha hlog (Or.inl hq)

/-- Something that is not about the context at the address: it is not called, and the tree of
    its RIB changes as above. -/
structure Foreign (addr : Ptr) (log : List DumpObs) (s s' : RibDumps) : Prop where
  ctx : ∀ c ∈ s.dumps, c.addr = addr → c ∈ s'.dumps
  back : addr ∈ s'.dumps.map (·.addr) → addr ∈ s.dumps.map (·.addr)
  calls : ∀ p, .call addr p ∉ log
  done : .done addr ∉ log
  tree : ∀ c ∈ s.dumps, c.addr = addr → ∀ t, s.ribs c.id = some t →
    ∃ t', s'.ribs c.id = some t' ∧ Change c.id c.re log t t'

theorem Foreign.trans (h : Foreign addr log s s₁) (h' : Foreign addr log' s₁ s') :
    Foreign addr (log ++ log') s s' where
  ctx c hc haddr := h'.ctx c (h.ctx c hc haddr) haddr
  back hmem := h.back (h'.back hmem)
  calls p hp := (List.mem_append.mp hp).elim (h.calls p) (h'.calls p)
  done hd := (List.mem_append.mp hd).elim h.done h'.done
  tree c hc haddr t ht := by
    obtain ⟨t₁, ht₁, hch⟩ := h.tree c hc haddr t ht
    obtain ⟨t', ht', hch'⟩ := h'.tree c (h.ctx c hc haddr) haddr t₁ ht₁
    exact ⟨t', ht', hch.trans hch'⟩

/-- The contexts and the trees are as before. -/
theorem Foreign.refl (hd : s'.dumps = s.dumps) (hr : s'.ribs = s.ribs) : Foreign addr [] s s' where
  ctx c hc _ := hd ▸ hc
  back hmem := hd ▸ hmem
  calls := by simp
  done := by simp
  tree c _ _ t ht := ⟨t, by rw [hr, ht], Change.refl t⟩

/-- One tree changes. -/
theorem Foreign.setTree {x : ℕ} (ht : s.ribs x = some t)
    (hch : ∀ c ∈ s.dumps, c.addr = addr → c.id = x → Change x c.re [] t t') :
    Foreign addr [] s (s.setTree x t') where
  ctx c hc _ := hc
  back hmem := hmem
  calls := by simp
  done := by simp
  tree c hc haddr t₀ ht₀ := by
    rw [ribs_setTree]
    split
    · next hid =>
      subst hid
      obtain rfl : t = t₀ := Option.some.inj (ht.symm.trans ht₀)
      exact ⟨t', rfl, hch c hc haddr rfl⟩
    · exact ⟨t₀, ht₀, Change.refl t₀⟩

/-- Contexts at other addresses pause, end or are created. -/
theorem Foreign.dumps (hc : ∀ c ∈ s.dumps, c.addr = addr → c ∈ s'.dumps)
    (hback : addr ∈ s'.dumps.map (·.addr) → addr ∈ s.dumps.map (·.addr))
    (hr : s'.ribs = s.ribs) : Foreign addr [] s s' where
  ctx := hc
  back := hback
  calls := by simp
  done := by simp
  tree c _ _ t ht := ⟨t, by rw [hr, ht], Change.refl t⟩

theorem map_addr_setRe (s : RibDumps) (a : Ptr) (x : Option Ptr) :
    (s.setRe a x).dumps.map (·.addr) = s.dumps.map (·.addr) := by
  show (List.map _ s.dumps).map _ = _
  rw [List.map_map]
  apply List.map_congr_left
  intro c _
  dsimp only [Function.comp]
  split <;> rfl

theorem Foreign.setRe {a : Ptr} (ha : a ≠ addr) (x : Option Ptr) :
    Foreign addr [] s (s.setRe a x) := by
  refine Foreign.dumps (fun c hc haddr => ?_) (fun hmem => ?_) rfl
  · refine List.mem_map.mpr ⟨c, hc, if_neg fun h => ha ?_⟩
    rw [← h, haddr]
  · rwa [map_addr_setRe] at hmem

theorem Foreign.dropContext {a : Ptr} (ha : a ≠ addr) : Foreign addr [] s (s.dropContext a) := by
  refine Foreign.dumps (fun c hc haddr => ?_)
    (fun hmem => (List.filter_sublist.map _).subset hmem) rfl
  refine List.mem_filter.mpr ⟨hc, ?_⟩
  simpa [haddr] using ha.symm

/-- More is logged, but not about the context. -/
theorem Foreign.weaken (h : Foreign addr [] s s') (hcalls : ∀ p, .call addr p ∉ log)
    (hdone : .done addr ∉ log) : Foreign addr log s s' := by
  refine ⟨h.ctx, h.back, hcalls, hdone, fun c hc haddr t ht => ?_⟩
  obtain ⟨t', ht', hch⟩ := h.tree c hc haddr t ht
  exact ⟨t', ht', hch.held, fun p pt ha _ => hch.alive p pt ha (by simp),
    fun p pt ha _ => hch.before p pt ha (by simp)⟩

theorem entryOp_foreign {op : RibDumps.EntryOp} (hok : TreesOk s)
    (h : s.entryOp env id pt op = some s') : Foreign addr (s.entryOpLog env id pt op) s s' := by
  have hlog : ∀ x ∈ s.entryOpLog env id pt op, ∃ id p, x = .emptied id p := by
    intro x hx
    have hops : x ∈ RibDumps.opsLog env pt [(id, op)] s := by
      rw [RibDumps.opsLog]
      exact List.mem_append_left _ hx
    exact opsLog_emptied hops
  refine ⟨fun c hc _ => (entryOp_keeps h).dumps ▸ hc,
    fun hmem => (entryOp_keeps h).dumps ▸ hmem, fun p hp => ?_, fun hd => ?_, ?_⟩
  · obtain ⟨_, _, hx⟩ := hlog _ hp
    cases hx
  · obtain ⟨_, _, hx⟩ := hlog _ hd
    cases hx
  · intro c _ _ t ht
    obtain ⟨t', ht', hheld, hc⟩ := entryOp_tree hok h ht
    exact ⟨t', ht', hc.change hheld⟩

theorem ribCall_foreign {upcall : RibDumps.Upcall} (hok : TreesOk s)
    (h : s.ribCall env upcall pt = some s') :
    Foreign addr (RibDumps.opsLog env pt (upcall pt) s) s s' := by
  refine ⟨fun c hc _ => (ribCall_keeps h).dumps ▸ hc,
    fun hmem => (ribCall_keeps h).dumps ▸ hmem, fun p hp => ?_, fun hd => ?_, ?_⟩
  · obtain ⟨_, _, hx⟩ := opsLog_emptied hp
    cases hx
  · obtain ⟨_, _, hx⟩ := opsLog_emptied hd
    cases hx
  · intro c _ _ t ht
    obtain ⟨t', ht', hc⟩ := ribCall_tree hok h ht
    exact ⟨t', ht', hc.change⟩

/-- A round of another context. -/
theorem dumpWalk_foreign {upcall : RibDumps.Upcall} {ctx : RibContext} (hne : ctx.addr ≠ addr)
    {todo : List Ptr} {i : ℕ} {paused : Option Ptr}
    (h : RibDumps.dumpWalk env upcall ctx todo i s = some (s', paused)) (hok : TreesOk s) :
    Foreign addr (RibDumps.walkLog env upcall ctx todo i s) s s' := by
  induction todo generalizing i s with
  | nil =>
    cases h
    exact Foreign.refl rfl rfl
  | cons x todo ih =>
    rw [RibDumps.dumpWalk] at h
    rw [RibDumps.walkLog]
    obtain ⟨t, ht, h⟩ := Option.bind_eq_some_iff.mp h
    obtain ⟨re, hre, h⟩ := Option.bind_eq_some_iff.mp h
    simp only [ht, Option.bind_some, hre]
    split_ifs at h ⊢ with hempty haid hsub hpause
    · exact ih h hok
    · exact ih h hok
    · cases h
      exact Foreign.refl rfl rfl
    · cases h
      exact Foreign.setTree ht fun _ _ _ _ =>
        Change.modify (fun _ => ⟨rfl, rfl, rfl⟩) (Or.inr fun _ _ => rfl)
    · obtain ⟨s₁, h₁, h⟩ := Option.bind_eq_some_iff.mp h
      have hcall : Foreign addr [.call ctx.addr x] s s :=
        (Foreign.refl rfl rfl).weaken (by simpa using fun h => absurd h.symm hne) (by simp)
      rw [h₁]
      exact hcall.trans ((ribCall_foreign hok h₁).trans (ih h ((ribCall_keeps h₁).ok hok)))

/-- Another context lets go of its entry. -/
theorem Foreign.start (hi : DumpInv s) {ctx : RibContext} (hctx : ctx ∈ s.dumps)
    (hne : ctx.addr ≠ addr) (ht : s.ribs ctx.id = some t) {todo : List Ptr}
    (h : RibDumps.dumpStart t ctx = some (t', todo)) :
    Foreign addr [] s ((s.setTree ctx.id t').setRe ctx.addr none) := by
  refine (Foreign.setTree ht fun c hc haddr hid => ?_).trans (Foreign.setRe hne none)
  unfold RibDumps.dumpStart at h
  split_ifs at h
  · cases h
    exact Change.refl t
  · cases hre : ctx.re with
    | none =>
      rw [hre] at h
      cases h
      exact Change.refl t
    | some q =>
      rw [hre] at h
      obtain ⟨-, -, h⟩ := Option.bind_eq_some_iff.mp h
      obtain ⟨t₁, ht₁, h⟩ := Option.bind_eq_some_iff.mp h
      cases h
      -- the entry of this context is another one
      have hq : q ∉ c.re := by
        rw [← haddr] at hne
        exact hi.distinct ctx hctx c hc hne hid.symm q hre
      have hunlock : Change ctx.id c.re [] t (reUnlock t q) :=
        Change.modify (fun _ => ⟨rfl, rfl, rfl⟩) (Or.inl hq)
      exact hunlock.trans (Change.ribRemoveEmpty ((hi.ok _ _ ht).modify fun _ => rfl) ht₁)

/-- A round of another dump is foreign to this one. -/
theorem ribDumpR_foreign (hi : DumpInv s) {upcall : RibDumps.Upcall} {a : Ptr} (hne : a ≠ addr)
    (h : s.ribDumpR env upcall a = some s') :
    Foreign addr (s.ribDumpRLog env upcall a) s s' := by
  unfold RibDumps.ribDumpR at h
  obtain ⟨ctx, hctx, h⟩ := Option.bind_eq_some_iff.mp h
  obtain ⟨t, ht, h⟩ := Option.bind_eq_some_iff.mp h
  obtain ⟨⟨t₁, todo⟩, hstart, h⟩ := Option.bind_eq_some_iff.mp h
  obtain ⟨⟨s₁, paused⟩, hwalk, h⟩ := Option.bind_eq_some_iff.mp h
  have hmem : ctx ∈ s.dumps := List.mem_of_find?_eq_some hctx
  obtain rfl : ctx.addr = a := by simpa using List.find?_some hctx
  have hs := Foreign.start hi hmem hne ht hstart
  have hw := dumpWalk_foreign hne hwalk (hi.start hmem ht hstart).ok
  unfold RibDumps.ribDumpRLog
  simp only [hctx, ht, Option.bind_some, hstart, hwalk]
  cases paused with
  | none =>
    cases h
    have hend : Foreign addr [.done ctx.addr] s₁ (s₁.dropContext ctx.addr) :=
      (Foreign.dropContext hne).weaken (by simp) (by simpa using hne.symm)
    exact hs.trans (hw.trans hend)
  | some q =>
    cases h
    have hend : Foreign addr [] s₁ (s₁.setRe ctx.addr (some q)) := Foreign.setRe hne _
    exact hs.trans (hw.trans hend)

theorem dumpInsert_foreign (hi : DumpInv s) {upcall : RibDumps.Upcall} {ctx : RibContext}
    (hne : ctx.addr ≠ addr) (hheld : ∀ p ∈ ctx.re, Held s ctx.id p)
    (hfree : ∀ p ∈ ctx.re, ∀ c ∈ s.dumps, c.id = ctx.id → p ∉ c.re)
    (h : s.dumpInsert env upcall ctx = some s') :
    Foreign addr (s.dumpInsertLog env upcall ctx) s s' := by
  have hnew : Foreign addr [] s { s with dumps := ctx :: s.dumps } :=
    Foreign.dumps (fun _ hc _ => List.mem_cons_of_mem _ hc)
      (fun hmem => (List.mem_cons.mp hmem).resolve_left hne.symm) rfl
  unfold RibDumps.dumpInsert at h
  unfold RibDumps.dumpInsertLog
  split_ifs at h with hfresh hcount
  · rw [if_pos ⟨hfresh, hcount⟩]
    exact hnew.trans (ribDumpR_foreign (hi.insert hfresh hheld hfree) hne h)
  · cases h
    rw [if_neg fun h => hcount h.2]
    exact hnew

/-- Freeing another dump is foreign to this one. -/
theorem ribDumpFree_foreign (hi : DumpInv s) {ctx : RibContext} (hctx : ctx ∈ s.dumps)
    (hne : ctx.addr ≠ addr) (h : s.ribDumpFree ctx = some s') :
    Foreign addr [.done ctx.addr] s s' := by
  unfold RibDumps.ribDumpFree at h
  split at h
  · cases h
    exact (Foreign.dropContext hne).weaken (by simp) (by simpa using hne.symm)
  · next q hre =>
    obtain ⟨t, ht, h⟩ := Option.bind_eq_some_iff.mp h
    obtain ⟨-, -, h⟩ := Option.bind_eq_some_iff.mp h
    obtain ⟨t', ht', h⟩ := Option.bind_eq_some_iff.mp h
    cases h
    have hset : Foreign addr [] s (s.setTree ctx.id t') := by
      refine Foreign.setTree ht fun c hc haddr hid => ?_
      have hq : q ∉ c.re := by
        rw [← haddr] at hne
        exact hi.distinct ctx hctx c hc hne hid.symm q hre
      have hunlock : Change ctx.id c.re [] t (reUnlock t q) :=
        Change.modify (fun _ => ⟨rfl, rfl, rfl⟩) (Or.inl hq)
      exact hunlock.trans (Change.ribRemoveEmpty ((hi.ok _ _ ht).modify fun _ => rfl) ht')
    exact (hset.trans (Foreign.dropContext hne)).weaken (by simp) (by simpa using hne.symm)

/-- Freeing a list of other dumps is foreign to this one. -/
theorem freeAll_foreign {l : List RibContext} (hi : DumpInv s) (hl : ∀ c ∈ l, c ∈ s.dumps)
    (hnd : (l.map (·.addr)).Nodup) (hne : ∀ c ∈ l, c.addr ≠ addr)
    (h : l.foldlM RibDumps.ribDumpFree s = some s') :
    Foreign addr (l.map fun c => .done c.addr) s s' := by
  induction l generalizing s with
  | nil =>
    cases h
    exact Foreign.refl rfl rfl
  | cons c l ih =>
    rw [List.foldlM_cons] at h
    obtain ⟨s₁, h₁, h⟩ := Option.bind_eq_some_iff.mp h
    rw [List.map_cons, List.nodup_cons] at hnd
    have hf : Foreign addr [.done c.addr] s s₁ :=
      ribDumpFree_foreign hi (hl c List.mem_cons_self) (hne c List.mem_cons_self) h₁
    refine hf.trans (ih (hi.ribDumpFree (hl c List.mem_cons_self) h₁) ?_ hnd.2
      (fun d hd => hne d (List.mem_cons_of_mem _ hd)) h)
    intro d hd
    rw [(ribDumpFree_freed h₁).dumps, List.mem_filter]
    refine ⟨hl d (List.mem_cons_of_mem _ hd), ?_⟩
    have : d.addr ≠ c.addr := fun heq => hnd.1 (heq ▸ List.mem_map_of_mem hd)
    simpa using this

theorem peerProcessUpdates_foreign (hok : TreesOk s) {peer : PeerId}
    (h : s.peerProcessUpdates peer = some s') : Foreign addr [] s s' := by
  unfold RibDumps.peerProcessUpdates at h
  split at h
  · cases h
    exact Foreign.refl rfl rfl
  · next x r q _ =>
    obtain ⟨t, ht, h⟩ := Option.bind_eq_some_iff.mp h
    obtain ⟨-, -, h⟩ := Option.bind_eq_some_iff.mp h
    obtain ⟨t', ht', h⟩ := Option.bind_eq_some_iff.mp h
    cases h
    have hset : Foreign addr [] s (s.setTree x t') := by
      refine Foreign.setTree ht fun c _ _ _ => ?_
      have hq : Change x c.re [] t (treeModify t r fun e => { e with queued := false }) :=
        Change.modify (fun _ => ⟨rfl, rfl, rfl⟩) (Or.inr fun _ hl => hl)
      exact hq.trans (Change.ribRemoveEmpty ((hok _ _ ht).modify fun _ => rfl) ht')
    exact hset.trans (Foreign.refl rfl rfl)

theorem ribNew_foreign (h : s.ribNew id = some s') : Foreign addr [] s s' := by
  unfold RibDumps.ribNew at h
  split_ifs at h with hsome
  cases h
  refine ⟨fun c hc _ => hc, fun hmem => hmem, by simp, by simp, fun c _ _ t ht => ?_⟩
  refine ⟨t, ?_, Change.refl t⟩
  rw [ribs_setTree, if_neg, ht]
  intro hid
  rw [← hid, ht] at hsome
  exact hsome rfl

/-- A log that does not mention entries of the RIB. -/
theorem Foreign.strengthen (h : Foreign addr log s s')
    (hlog : ∀ c ∈ s.dumps, c.addr = addr → ∀ p, .emptied c.id p ∉ log) :
    Foreign addr [] s s' := by
  refine ⟨h.ctx, h.back, by simp, by simp, fun c hc haddr t ht => ?_⟩
  obtain ⟨t', ht', hch⟩ := h.tree c hc haddr t ht
  have hl := hlog c hc haddr
  exact ⟨t', ht', hch.held, fun p pt ha _ => hch.alive p pt ha (hl p),
    fun p pt ha _ => hch.before p pt ha (hl p)⟩

/-- Another RIB is freed. -/
theorem ribFree_foreign (hi : DumpInv s) (hid : ∀ c ∈ s.dumps, c.addr = addr → c.id ≠ id)
    (h : s.ribFree id = some s') : Foreign addr [] s s' := by
  unfold RibDumps.ribFree at h
  obtain ⟨s₁, h₁, h⟩ := Option.bind_eq_some_iff.mp h
  obtain ⟨t, ht, h⟩ := Option.bind_eq_some_iff.mp h
  have hf : Foreign addr [] s s₁ := by
    refine (freeAll_foreign hi (fun c hc => (List.mem_filter.mp hc).1)
      (hi.addrs.sublist (List.filter_sublist.map _)) (fun c hc haddr => ?_) h₁).strengthen
      fun c _ _ p hp => ?_
    · obtain ⟨hc, hcond⟩ := List.mem_filter.mp hc
      simp only [decide_eq_true_eq] at hcond
      exact hid c hc haddr hcond.1
    · obtain ⟨d, -, hd⟩ := List.mem_map.mp hp
      cases hd
  have hid₁ : ∀ c ∈ s₁.dumps, c.addr = addr → c.id ≠ id := by
    intro c hc haddr
    have hmem := hf.back (haddr ▸ List.mem_map_of_mem hc)
    obtain ⟨d, hd, hda⟩ := List.mem_map.mp hmem
    have hd₁ := hf.ctx d hd hda
    rw [(hi.freeFilter h₁).eq_of_addr hc hd₁ (haddr.trans hda.symm)]
    exact hid d hd hda
  refine hf.trans ?_
  split_ifs at h
  · cases h
    exact Foreign.setTree ht fun c hc haddr hx => absurd hx (hid₁ c hc haddr)
  · cases h
    refine ⟨fun c hc _ => hc, fun hmem => hmem, by simp, by simp, fun c hc haddr t' ht' => ?_⟩
    refine ⟨t', ?_, Change.refl t'⟩
    show Function.update s₁.ribs id none c.id = some t'
    rw [Function.update_of_ne (hid₁ c hc haddr)]
    exact ht'

theorem rdeReloadDone_foreign (hi : DumpInv s) {delete : List ℕ}
    (hid : ∀ c ∈ s.dumps, c.addr = addr → c.id ∉ delete)
    (h : s.rdeReloadDone delete = some s') : Foreign addr [] s s' := by
  unfold RibDumps.rdeReloadDone at h
  induction delete generalizing s with
  | nil =>
    cases h
    exact Foreign.refl rfl rfl
  | cons id delete ih =>
    rw [List.foldlM_cons] at h
    obtain ⟨s₁, h₁, h⟩ := Option.bind_eq_some_iff.mp h
    have hf : Foreign addr [] s s₁ := ribFree_foreign hi
      (fun c hc haddr hx => hid c hc haddr (hx ▸ List.mem_cons_self)) h₁
    refine hf.trans (ih (hi.ribFree h₁) (fun c hc haddr => ?_) h)
    have hmem := hf.back (haddr ▸ List.mem_map_of_mem hc)
    obtain ⟨d, hd, hda⟩ := List.mem_map.mp hmem
    rw [(hi.ribFree h₁).eq_of_addr hc (hf.ctx d hd hda) (haddr.trans hda.symm)]
    exact fun hx => hid d hd hda (List.mem_cons_of_mem _ hx)

/-- The event does not end the context, and it creates no other one at the same address. -/
def Apart (addr : Ptr) (id arg : ℕ) : DumpEvent → Prop
  | .dumpNew _ a _ _ _ _ => a ≠ addr
  | .dumpSubtree _ a _ _ _ _ _ => a ≠ addr
  | .adjoutDumpNew a _ _ => a ≠ addr
  | .terminate arg' => arg' ≠ arg
  | .reload delete => id ∉ delete
  | _ => True

instance (addr : Ptr) (id arg : ℕ) (e : DumpEvent) : Decidable (Apart addr id arg e) :=
  match e with
  | .dumpNew _ a _ _ _ _ => inferInstanceAs (Decidable (a ≠ addr))
  | .dumpSubtree _ a _ _ _ _ _ => inferInstanceAs (Decidable (a ≠ addr))
  | .adjoutDumpNew a _ _ => inferInstanceAs (Decidable (a ≠ addr))
  | .terminate arg' => inferInstanceAs (Decidable (arg' ≠ arg))
  | .reload delete => inferInstanceAs (Decidable (id ∉ delete))
  | .ribNew _ | .entryOp .. | .processUpdates _ | .peerDelete _ | .dumpR .. => isTrue trivial

/-- A subtree dump under another address is foreign to this one. -/
theorem ribDumpSubtree_foreign (hi : DumpInv s) {upcall : RibDumps.Upcall} {a : Ptr}
    (hne : a ≠ addr) {subtree : BgpdAddr} {len count arg : ℕ}
    (he : SubtreeOk env s (.dumpSubtree upcall a id subtree len count arg))
    (h : s.ribDumpSubtree env upcall a id subtree len count arg = some s') :
    Foreign addr (dumpLog env s (.dumpSubtree upcall a id subtree len count arg)) s s' := by
  unfold RibDumps.ribDumpSubtree at h
  obtain ⟨t, ht, h⟩ := Option.bind_eq_some_iff.mp h
  unfold dumpLog
  simp only [ht, Option.bind_some]
  cases hre : treeNfind env t (env.ptFill subtree len) with
  | none =>
    rw [hre] at h
    exact dumpInsert_foreign hi hne (by simp) (by simp) h
  | some re =>
    rw [hre] at h
    have hmem : re ∈ t := List.mem_of_find?_eq_some hre
    have hlock : TreeKeeps t (reLock t re.ptr) := treeModify_keeps (fun _ => rfl) fun _ _ => rfl
    have hf : Foreign addr [] s (s.setTree id (reLock t re.ptr)) :=
      Foreign.setTree ht fun _ _ _ _ =>
        Change.modify (fun _ => ⟨rfl, rfl, rfl⟩) (Or.inr fun _ _ => rfl)
    refine hf.trans (dumpInsert_foreign (hi.keeps (setTree_keeps ht hlock)) hne ?_ ?_ h)
    · rintro p ⟨⟩
      exact held_reLock hmem
    · rintro p ⟨⟩
      exact hi.not_held ht hmem (he t ht re hre)

/-- Every event but a round of the context itself. -/
theorem dumpStep_foreign {e : DumpEvent} {arg : ℕ} (hi : DumpInv s) (hsub : SubtreeOk env s e)
    (hctx : ∀ c ∈ s.dumps, c.addr = addr → c.id = id ∧ c.arg = arg) (he : Apart addr id arg e)
    (hown : ∀ upcall, e ≠ .dumpR upcall addr) (h : dumpStep env s e = some s') :
    Foreign addr (dumpLog env s e) s s' := by
  cases e with
  | ribNew id' => exact ribNew_foreign h
  | entryOp id' pt op => exact entryOp_foreign hi.ok h
  | processUpdates peer => exact peerProcessUpdates_foreign hi.ok h
  | peerDelete peer =>
    cases h
    exact Foreign.refl (peerDelete_keeps peer).dumps (by unfold RibDumps.peerDelete; split <;> rfl)
  | dumpNew upcall a id' aid count arg' =>
    simp only [dumpStep, RibDumps.ribDumpNew] at h
    obtain ⟨t, -, h⟩ := Option.bind_eq_some_iff.mp h
    exact dumpInsert_foreign hi he (by simp) (by simp) h
  | dumpSubtree upcall a id' subtree len count arg' => exact ribDumpSubtree_foreign hi he hsub h
  | adjoutDumpNew a id' arg' =>
    simp only [dumpStep, RibDumps.adjoutPrefixDumpNew] at h
    split_ifs at h
    cases h
    exact Foreign.dumps (fun _ hc _ => List.mem_cons_of_mem _ hc)
      (fun hmem => (List.mem_cons.mp hmem).resolve_left fun h => he h.symm) rfl
  | dumpR upcall a => exact ribDumpR_foreign hi (fun ha => hown upcall (ha ▸ rfl)) h
  | terminate arg' =>
    refine freeAll_foreign hi (fun c hc => (List.mem_filter.mp hc).1)
      (hi.addrs.sublist (List.filter_sublist.map _)) (fun c hc haddr => ?_) h
    obtain ⟨hc, harg⟩ := List.mem_filter.mp hc
    rw [decide_eq_true_eq] at harg
    exact he (harg.symm.trans (hctx c hc haddr).2)
  | reload delete =>
    have hid : ∀ c ∈ s.dumps, c.addr = addr → c.id ∉ delete := by
      intro c hc haddr
      rw [(hctx c hc haddr).1]
      exact he
    have hlog : ∀ x ∈ dumpLog env s (.reload delete), ∃ id' ∈ delete, x ∈ s.ribFreeLog id' := by
      intro x hx
      exact List.mem_flatMap.mp hx
    refine (rdeReloadDone_foreign hi hid h).weaken (fun p hp => ?_) fun hd => ?_
    · obtain ⟨id', -, hx⟩ := hlog _ hp
      rcases List.mem_append.mp hx with hx | hx
      · obtain ⟨_, -, hx⟩ := List.mem_map.mp hx
        cases hx
      · obtain ⟨_, -, hx⟩ := List.mem_map.mp hx
        cases hx
    · obtain ⟨id', hid', hx⟩ := hlog _ hd
      rcases List.mem_append.mp hx with hx | hx
      · obtain ⟨c, hc, hx⟩ := List.mem_map.mp hx
        cases hx
        obtain ⟨hc, hcond⟩ := List.mem_filter.mp hc
        simp only [decide_eq_true_eq] at hcond
        exact hid c hc rfl (hcond.1 ▸ hid')
      · obtain ⟨_, -, hx⟩ := List.mem_map.mp hx
        cases hx

/-! ## Destinations -/

theorem PtsOk.setTree (h : PtsOk s) (ht : (t.map (·.pt)).Nodup) : PtsOk (s.setTree id t) := by
  intro id' t' ht'
  rw [ribs_setTree] at ht'
  split at ht'
  · cases ht'
    exact ht
  · exact h id' t' ht'

theorem PtsOk.modify {f : DumpEntry → DumpEntry} (h : PtsOk s) (hf : ∀ e, (f e).pt = e.pt)
    (ht : s.ribs id = some t) : ((treeModify t r f).map (·.pt)).Nodup := by
  rw [map_pt_treeModify hf]
  exact h id t ht

theorem entryOp_ptsOk {op : RibDumps.EntryOp} (henv : env.Separates) (hok : TreesOk s)
    (hpts : PtsOk s) (h : s.entryOp env id pt op = some s') : PtsOk s' :=
  have hcall : s.ribCall env (fun _ => [(id, op)]) pt = some s' := by
    rw [RibDumps.ribCall, List.foldlM_cons, h]
    rfl
  ribCall_ptsOk henv hok hpts hcall

/-- A walk keeps one entry for each prefix in each tree. -/
theorem dumpWalk_ptsOk (henv : env.Separates) {upcall : RibDumps.Upcall} {ctx : RibContext}
    {todo : List Ptr} {i : ℕ} {paused : Option Ptr}
    (h : RibDumps.dumpWalk env upcall ctx todo i s = some (s', paused)) (hok : TreesOk s)
    (hpts : PtsOk s) : PtsOk s' := by
  induction todo generalizing i s with
  | nil =>
    cases h
    exact hpts
  | cons x todo ih =>
    rw [RibDumps.dumpWalk] at h
    obtain ⟨t, ht, h⟩ := Option.bind_eq_some_iff.mp h
    obtain ⟨re, hre, h⟩ := Option.bind_eq_some_iff.mp h
    split_ifs at h
    · exact ih h hok hpts
    · exact ih h hok hpts
    · cases h
      exact hpts
    · cases h
      exact hpts.setTree (hpts.modify (fun _ => rfl) ht)
    · obtain ⟨s₁, h₁, h⟩ := Option.bind_eq_some_iff.mp h
      exact ih h ((ribCall_keeps h₁).ok hok) (ribCall_ptsOk henv hok hpts h₁)

/-- An entry is unlocked, and it is freed if it is empty. -/
theorem PtsOk.release (hpts : PtsOk s) (ht : s.ribs id = some t)
    (h : ribRemoveEmpty (reUnlock t r) r = some t') : PtsOk (s.setTree id t') := by
  have hunlock : ((reUnlock t r).map (·.pt)).Nodup := hpts.modify (fun _ => rfl) ht
  exact hpts.setTree (hunlock.sublist ((ribRemoveEmpty_sublist h).map _))

theorem dumpStart_ptsOk (hpts : PtsOk s) {ctx : RibContext} (ht : s.ribs ctx.id = some t)
    {todo : List Ptr} (h : RibDumps.dumpStart t ctx = some (t', todo)) :
    PtsOk (s.setTree ctx.id t') := by
  unfold RibDumps.dumpStart at h
  split_ifs at h
  · cases h
    exact hpts.setTree (hpts _ _ ht)
  · cases hre : ctx.re with
    | none =>
      rw [hre] at h
      cases h
      exact hpts.setTree (hpts _ _ ht)
    | some q =>
      rw [hre] at h
      obtain ⟨-, -, h⟩ := Option.bind_eq_some_iff.mp h
      obtain ⟨t₁, ht₁, h⟩ := Option.bind_eq_some_iff.mp h
      cases h
      exact hpts.release ht ht₁

theorem ribDumpR_ptsOk (henv : env.Separates) (hi : DumpInv s) (hpts : PtsOk s)
    {upcall : RibDumps.Upcall} {a : Ptr} (h : s.ribDumpR env upcall a = some s') : PtsOk s' := by
  unfold RibDumps.ribDumpR at h
  obtain ⟨ctx, hctx, h⟩ := Option.bind_eq_some_iff.mp h
  obtain ⟨t, ht, h⟩ := Option.bind_eq_some_iff.mp h
  obtain ⟨⟨t₁, todo⟩, hstart, h⟩ := Option.bind_eq_some_iff.mp h
  obtain ⟨⟨s₁, paused⟩, hwalk, h⟩ := Option.bind_eq_some_iff.mp h
  obtain rfl : ctx.addr = a := by simpa using List.find?_some hctx
  have hpts₀ : PtsOk ((s.setTree ctx.id t₁).setRe ctx.addr none) :=
    dumpStart_ptsOk hpts ht hstart
  have hpts₁ := dumpWalk_ptsOk henv hwalk
    (hi.start (List.mem_of_find?_eq_some hctx) ht hstart).ok hpts₀
  cases paused with
  | none =>
    cases h
    exact hpts₁
  | some q =>
    cases h
    exact hpts₁

theorem dumpInsert_ptsOk (henv : env.Separates) (hi : DumpInv s) (hpts : PtsOk s)
    {upcall : RibDumps.Upcall} {ctx : RibContext} (hheld : ∀ p ∈ ctx.re, Held s ctx.id p)
    (hfree : ∀ p ∈ ctx.re, ∀ c ∈ s.dumps, c.id = ctx.id → p ∉ c.re)
    (h : s.dumpInsert env upcall ctx = some s') : PtsOk s' := by
  unfold RibDumps.dumpInsert at h
  split_ifs at h with hfresh
  · exact ribDumpR_ptsOk henv (hi.insert hfresh hheld hfree) hpts h
  · cases h
    exact hpts

theorem freeAll_ptsOk {l : List RibContext} (hpts : PtsOk s)
    (h : l.foldlM RibDumps.ribDumpFree s = some s') : PtsOk s' := by
  induction l generalizing s with
  | nil =>
    cases h
    exact hpts
  | cons c l ih =>
    rw [List.foldlM_cons] at h
    obtain ⟨s₁, h₁, h⟩ := Option.bind_eq_some_iff.mp h
    refine ih ?_ h
    unfold RibDumps.ribDumpFree at h₁
    split at h₁
    · cases h₁
      exact hpts
    · obtain ⟨t, ht, h₁⟩ := Option.bind_eq_some_iff.mp h₁
      obtain ⟨-, -, h₁⟩ := Option.bind_eq_some_iff.mp h₁
      obtain ⟨t', ht', h₁⟩ := Option.bind_eq_some_iff.mp h₁
      cases h₁
      exact hpts.release ht ht'

/-- Freeing a RIB keeps one entry for each prefix in each tree. -/
theorem ribFree_ptsOk (hpts : PtsOk s) (h : s.ribFree id = some s') : PtsOk s' := by
  unfold RibDumps.ribFree at h
  obtain ⟨s₁, h₁, h⟩ := Option.bind_eq_some_iff.mp h
  obtain ⟨t, ht, h⟩ := Option.bind_eq_some_iff.mp h
  have hpts₁ := freeAll_ptsOk hpts h₁
  split_ifs at h
  · cases h
    apply hpts₁.setTree
    have hmap : ∀ l : RibTree,
        (l.map fun e => { e with prefixes := 0 }).map (·.pt) = l.map (·.pt) := by
      intro l
      rw [List.map_map]
      rfl
    unfold RibDumps.flushTree
    rw [hmap]
    exact (hpts₁ id t ht).sublist (List.filter_sublist.map _)
  · cases h
    intro id' t' ht'
    dsimp only at ht'
    rw [Function.update_apply] at ht'
    split at ht'
    · cases ht'
    · exact hpts₁ id' t' ht'

/-- Every step keeps one entry for each prefix in each tree. -/
theorem dumpStep_ptsOk {e : DumpEvent} (henv : env.Separates) (hi : DumpInv s) (hpts : PtsOk s)
    (hsub : SubtreeOk env s e) (h : dumpStep env s e = some s') : PtsOk s' := by
  cases e with
  | ribNew id =>
    simp only [dumpStep, RibDumps.ribNew] at h
    split_ifs at h
    cases h
    exact hpts.setTree List.nodup_nil
  | entryOp id pt op => exact entryOp_ptsOk henv hi.ok hpts h
  | processUpdates peer =>
    simp only [dumpStep, RibDumps.peerProcessUpdates] at h
    split at h
    · cases h
      exact hpts
    · next id r q _ =>
      obtain ⟨t, ht, h⟩ := Option.bind_eq_some_iff.mp h
      obtain ⟨-, -, h⟩ := Option.bind_eq_some_iff.mp h
      obtain ⟨t', ht', h⟩ := Option.bind_eq_some_iff.mp h
      cases h
      have hdequeue : ((treeModify t r fun e => { e with queued := false }).map (·.pt)).Nodup :=
        hpts.modify (fun _ => rfl) ht
      exact hpts.setTree (hdequeue.sublist ((ribRemoveEmpty_sublist ht').map _))
  | peerDelete peer =>
    cases h
    unfold RibDumps.peerDelete
    split
    · exact hpts
    · exact hpts
  | dumpNew upcall a id aid count arg =>
    simp only [dumpStep, RibDumps.ribDumpNew] at h
    obtain ⟨t, -, h⟩ := Option.bind_eq_some_iff.mp h
    exact dumpInsert_ptsOk henv hi hpts (by simp) (by simp) h
  | dumpSubtree upcall a id subtree len count arg =>
    simp only [dumpStep, RibDumps.ribDumpSubtree] at h
    obtain ⟨t, ht, h⟩ := Option.bind_eq_some_iff.mp h
    cases hre : treeNfind env t (env.ptFill subtree len) with
    | none =>
      rw [hre] at h
      exact dumpInsert_ptsOk henv hi hpts (by simp) (by simp) h
    | some re =>
      rw [hre] at h
      have hmem : re ∈ t := List.mem_of_find?_eq_some hre
      have hlock : TreeKeeps t (reLock t re.ptr) := treeModify_keeps (fun _ => rfl) fun _ _ => rfl
      refine dumpInsert_ptsOk henv (hi.keeps (setTree_keeps ht hlock))
        (hpts.setTree (hpts.modify (fun _ => rfl) ht)) ?_ ?_ h
      · rintro p ⟨⟩
        exact held_reLock hmem
      · rintro p ⟨⟩
        exact hi.not_held ht hmem (hsub t ht re hre)
  | adjoutDumpNew a id arg =>
    simp only [dumpStep, RibDumps.adjoutPrefixDumpNew] at h
    split_ifs at h
    cases h
    exact hpts
  | dumpR upcall a => exact ribDumpR_ptsOk henv hi hpts h
  | terminate arg => exact freeAll_ptsOk hpts h
  | reload delete =>
    simp only [dumpStep, RibDumps.rdeReloadDone] at h
    induction delete generalizing s with
    | nil =>
      cases h
      exact hpts
    | cons id delete ih =>
      rw [List.foldlM_cons] at h
      obtain ⟨s₁, h₁, h⟩ := Option.bind_eq_some_iff.mp h
      exact ih (hi.ribFree h₁) (ribFree_ptsOk hpts h₁) trivial h

/-! ## The context -/

/-- The context is there and its RIB has the entry, for which the callback was called `n` times
    so far. A context that holds no entry has not started. -/
structure Walking (s : RibDumps) (ctx : RibContext) (p : Ptr) (pt : PtEntry) (n : ℕ) : Prop where
  mem : ctx ∈ s.dumps
  tree : ∃ t, s.ribs ctx.id = some t ∧ Alive t p pt ∧
    (ctx.re = none ∧ n = 0 ∨ ctx.re ≠ none ∧ Placed t p n ctx.re)

/-- The other events. -/
theorem Walking.foreign {ctx : RibContext} {n : ℕ} (hw : Walking s ctx p pt n) (hi : DumpInv s)
    (hf : Foreign ctx.addr log s s') (hlog : .emptied ctx.id p ∉ log) : Walking s' ctx p pt n := by
  obtain ⟨t, ht, ha, hplace⟩ := hw.tree
  obtain ⟨t', ht', hch⟩ := hf.tree ctx hw.mem rfl t ht
  refine ⟨hf.ctx ctx hw.mem rfl, t', ht', hch.alive p pt ha hlog, hplace.imp_right ?_⟩
  rintro ⟨hne, hp⟩
  refine ⟨hne, ?_⟩
  obtain ⟨q, hq⟩ := Option.ne_none_iff_exists'.mp hne
  have hheld : TreeHeld t q := by
    obtain ⟨t₀, ht₀, hh⟩ := hi.held ctx hw.mem q hq
    rwa [Option.some.inj (ht.symm.trans ht₀)]
  obtain ⟨hpq, hqp⟩ := hch.before p pt ha hlog q hq hheld
  rw [hq] at hp ⊢
  exact hp.imp (fun ⟨h, hn⟩ => ⟨h.imp_right hqp, hn⟩) fun ⟨h, hn⟩ => ⟨hpq h, hn⟩

theorem mem_dropWhile_of_not {α : Type} {P : α → Bool} {l : List α} {x : α} (hx : x ∈ l)
    (hP : P x = false) : x ∈ l.dropWhile P := by
  induction l with
  | nil => cases hx
  | cons y l ih =>
    rw [List.dropWhile_cons]
    split_ifs with hy
    · rcases List.mem_cons.mp hx with rfl | hx
      · rw [hP] at hy
        cases hy
      · exact ih hx
    · exact hx

/-- The entry at an address, what is before it and what is behind it. -/
theorem TreeOk.split {e : DumpEntry} (ok : TreeOk t) (he : e ∈ t) :
    ∃ l r, t = l ++ e :: r ∧ (t.dropWhile fun x => x.ptr ≠ e.ptr) = e :: r := by
  obtain ⟨l, r, rfl⟩ := List.append_of_mem he
  refine ⟨l, r, rfl, ?_⟩
  unfold TreeOk at ok
  rw [List.map_append, List.map_cons, List.nodup_append'] at ok
  have hl : ∀ x ∈ l, decide (x.ptr ≠ e.ptr) = true := by
    intro x hx
    rw [decide_eq_true_eq]
    intro hptr
    exact ok.2.2 (List.mem_map_of_mem hx) (hptr ▸ List.mem_cons_self)
  rw [List.dropWhile_append_of_pos hl, List.dropWhile_cons_of_neg (by simp)]

/-- The entries that a context visits are in the tree, after its own entry was freed if that is
    empty. -/
theorem restart_sublist {l r : RibTree} {e : DumpEntry} (ok : TreeOk (l ++ e :: r))
    (h : ribRemoveEmpty (l ++ e :: r) e.ptr = some t') :
    (((e :: r).dropWhile fun x => x.prefixes = 0).map (·.ptr)).Sublist (t'.map (·.ptr)) := by
  have hsub : ((e :: r).dropWhile fun x => x.prefixes = 0).Sublist (l ++ e :: r) :=
    (List.dropWhile_sublist _).trans (List.sublist_append_right _ _)
  rcases ribRemoveEmpty_eq h with rfl | ⟨rfl, e', hget, hzero, -⟩
  · exact hsub.map _
  · have hmem : e ∈ l ++ e :: r := by simp
    obtain rfl : e = e' := Option.some.inj ((ok.treeGet_eq hmem).symm.trans hget)
    -- the entry is empty, so that it was passed over
    have hne : ∀ x ∈ (e :: r).dropWhile fun x => x.prefixes = 0, decide (x.ptr ≠ e.ptr) = true := by
      rw [List.dropWhile_cons_of_pos (by simpa using hzero)]
      intro x hx
      have hxr : x.ptr ∈ r.map (·.ptr) :=
        List.mem_map_of_mem ((List.dropWhile_sublist _).subset hx)
      unfold TreeOk at ok
      rw [List.map_append, List.map_cons, List.nodup_append'] at ok
      rw [decide_eq_true_eq]
      rintro hptr
      exact (List.nodup_cons.mp ok.2.1).1 (hptr ▸ hxr)
    have hfilter := hsub.filter fun x => decide (x.ptr ≠ e.ptr)
    rw [List.filter_eq_self.mpr hne] at hfilter
    exact hfilter.map _

/-- The part of the tree that a context visits when it goes on: the entries that are ahead of
    the one at which it paused. -/
theorem dumpStart_place {ctx : RibContext} {n : ℕ} (hsub : ctx.subtree = none) (ok : TreeOk t)
    {todo : List Ptr} (h : RibDumps.dumpStart t ctx = some (t', todo)) (ha : Alive t p pt)
    (hplace : ctx.re = none ∧ n = 0 ∨ ctx.re ≠ none ∧ Placed t p n ctx.re) :
    Alive t' p pt ∧ todo.Sublist (t'.map (·.ptr)) ∧
      (p ∈ todo ∧ n = 0 ∨ p ∉ todo ∧ (∀ x ∈ todo, Before t' p x) ∧ n = 1) := by
  unfold RibDumps.dumpStart at h
  cases hre : ctx.re with
  -- the first round starts with the whole tree
  | none =>
    rw [if_pos ⟨hre, hsub⟩] at h
    cases h
    refine ⟨ha, List.Sublist.refl _, ?_⟩
    rcases hplace with ⟨-, rfl⟩ | ⟨hne, -⟩
    · exact Or.inl ⟨ha.mem, rfl⟩
    · exact absurd hre hne
  -- a later round starts at the entry that was locked
  | some q =>
    rw [hre, if_neg (by simp)] at h
    replace hplace : Placed t p n (some q) := by
      rcases hplace with ⟨hnone, -⟩ | ⟨-, hp⟩
      · rw [hre] at hnone
        cases hnone
      · rwa [hre] at hp
    obtain ⟨e, hget, h⟩ := Option.bind_eq_some_iff.mp h
    obtain ⟨t₁, ht₁, h⟩ := Option.bind_eq_some_iff.mp h
    cases h
    have hptrs : (reUnlock t q).map (·.ptr) = t.map (·.ptr) := map_ptr_treeModify fun _ => rfl
    have hau : Alive (reUnlock t q) p pt := ha.modify fun e => ⟨rfl, rfl, fun hne => hne⟩
    have oku : TreeOk (reUnlock t q) := ok.modify fun _ => rfl
    have ha₁ := hau.ribRemoveEmpty oku ht₁
    have hbu : ∀ a b, Before t a b ↔ Before (reUnlock t q) a b := fun a b => by
      unfold Before
      rw [hptrs]
    rw [Placed, hbu, hbu] at hplace
    obtain ⟨hmem, rfl⟩ := treeGet_eq_some hget
    generalize hu : reUnlock t e.ptr = u at *
    -- the entry is still in the tree when it is unlocked
    obtain ⟨eq, heq, hptr⟩ : ∃ eq ∈ u, eq.ptr = e.ptr := by
      have hq : e.ptr ∈ u.map (·.ptr) := by
        rw [hptrs]
        exact List.mem_map_of_mem hmem
      obtain ⟨x, hx, hxp⟩ := List.mem_map.mp hq
      exact ⟨x, hx, hxp⟩
    rw [← hptr] at hplace ht₁ ⊢
    obtain ⟨l, r, rfl, hdrop⟩ := oku.split heq
    have hsub₁ := restart_sublist oku ht₁
    rw [hdrop]
    have hL : (l ++ eq :: r).map (·.ptr) = l.map (·.ptr) ++ eq.ptr :: r.map (·.ptr) := by simp
    have hnd : (l.map (·.ptr) ++ eq.ptr :: r.map (·.ptr)).Nodup := hL ▸ oku
    -- the empty entries at the start are passed over
    have hsub₀ : ∀ x ∈ ((eq :: r).dropWhile fun e => e.prefixes = 0).map (·.ptr),
        x ∈ eq.ptr :: r.map (·.ptr) := fun x hx =>
      ((List.dropWhile_sublist _).map DumpEntry.ptr).subset hx
    refine ⟨ha₁, hsub₁, ?_⟩
    -- the entry in question is not before the start, so it is still to come
    rcases hplace with ⟨hahead, hn⟩ | ⟨hbehind, hn⟩
    · left
      refine ⟨?_, hn⟩
      obtain ⟨ep, hep, rfl, rfl, hne⟩ := hau
      refine List.mem_map_of_mem (mem_dropWhile_of_not ?_ (by simpa using hne))
      have hpr : ep.ptr ∈ eq.ptr :: r.map (·.ptr) := by
        rcases hahead with hpq | hb
        · rw [hpq]
          exact List.mem_cons_self
        · unfold Before at hb
          rw [hL] at hb
          exact List.mem_cons_of_mem _ ((pair_sublist_right hnd).mp hb)
      refine (List.mem_append.mp hep).resolve_left fun hl => ?_
      exact (List.nodup_append'.mp hnd).2.2 (List.mem_map_of_mem hl) hpr
    -- the entry was visited before the pause, and stands before the start
    · right
      unfold Before at hbehind
      rw [hL] at hbehind
      have hpl := (pair_sublist_left hnd).mp hbehind
      refine ⟨fun hp => (List.nodup_append'.mp hnd).2.2 hpl (hsub₀ p hp), fun x hx => ?_, hn⟩
      have hbx : Before (l ++ eq :: r) p x := by
        unfold Before
        rw [hL]
        exact (List.singleton_sublist.mpr hpl).append (List.singleton_sublist.mpr (hsub₀ x hx))
      exact hbx.ribRemoveEmpty ht₁ ha₁.mem (hsub₁.subset hx)

/-- A walk never logs the end of a dump. -/
theorem walkLog_done {upcall : RibDumps.Upcall} {ctx : RibContext} {a : Ptr} {todo : List Ptr}
    {i : ℕ} : .done a ∉ RibDumps.walkLog env upcall ctx todo i s := by
  induction todo generalizing i s with
  | nil => simp [RibDumps.walkLog]
  | cons x todo ih =>
    rw [RibDumps.walkLog]
    split
    · simp
    · split_ifs
      · exact ih
      · exact ih
      · simp
      · simp
      · intro h
        rcases List.mem_append.mp ((List.mem_cons.mp h).resolve_left (by simp)) with h | h
        · obtain ⟨_, _, hx⟩ := opsLog_emptied h
          cases hx
        · split at h
          · cases h
          · exact ih h

/-- A round of the context: it pauses at an entry, or it ends. In both cases the callback was
    called as it should. -/
theorem ribDumpR_own (henv : env.Separates) (hi : DumpInv s) (hpts : PtsOk s)
    {upcall : RibDumps.Upcall} {ctx : RibContext} (hctx : ctx ∈ s.dumps)
    (hsub : ctx.subtree = none) (h : s.ribDumpR env upcall ctx.addr = some s') :
    ∃ l, .done ctx.addr ∉ l ∧
      ((s.ribDumpRLog env upcall ctx.addr = l ∧ ∃ q, { ctx with re := some q } ∈ s'.dumps ∧
          ∀ p pt n, Walking s ctx p pt n → (ctx.aid = none ∨ ctx.aid = some pt.aid) →
            .emptied ctx.id p ∉ l →
            Walking s' { ctx with re := some q } p pt (n + (callsOf ctx.addr l).count p)) ∨
        (s.ribDumpRLog env upcall ctx.addr = l ++ [.done ctx.addr] ∧
          ctx.addr ∉ s'.dumps.map (·.addr) ∧
          ∀ p pt n, Walking s ctx p pt n → (ctx.aid = none ∨ ctx.aid = some pt.aid) →
            .emptied ctx.id p ∉ l → n + (callsOf ctx.addr l).count p = 1)) := by
  unfold RibDumps.ribDumpR at h
  obtain ⟨ctx', hfind, h⟩ := Option.bind_eq_some_iff.mp h
  obtain rfl : ctx' = ctx := by
    refine hi.eq_of_addr (List.mem_of_find?_eq_some hfind) hctx ?_
    simpa using List.find?_some hfind
  obtain ⟨t, ht, h⟩ := Option.bind_eq_some_iff.mp h
  obtain ⟨⟨t₁, todo⟩, hstart, h⟩ := Option.bind_eq_some_iff.mp h
  obtain ⟨⟨s₁, paused⟩, hwalk, h⟩ := Option.bind_eq_some_iff.mp h
  have hi₀ := hi.start hctx ht hstart
  have hk := (dumpWalk_spec hwalk hi₀.ok).1
  have hpts₀ : PtsOk ((s.setTree ctx'.id t₁).setRe ctx'.addr none) :=
    dumpStart_ptsOk hpts ht hstart
  have ht₀ : ((s.setTree ctx'.id t₁).setRe ctx'.addr none).ribs ctx'.id = some t₁ := by
    show (s.setTree ctx'.id t₁).ribs ctx'.id = some t₁
    rw [ribs_setTree, if_pos rfl]
  -- the round, for any entry
  have hround : ∀ p pt n, Walking s ctx' p pt n → (ctx'.aid = none ∨ ctx'.aid = some pt.aid) →
      .emptied ctx'.id p ∉ RibDumps.walkLog env upcall ctx' todo 0
        ((s.setTree ctx'.id t₁).setRe ctx'.addr none) →
      ∃ t', s₁.ribs ctx'.id = some t' ∧ Alive t' p pt ∧
        Placed t' p (n + (callsOf ctx'.addr (RibDumps.walkLog env upcall ctx' todo 0
          ((s.setTree ctx'.id t₁).setRe ctx'.addr none))).count p) paused := by
    intro p pt n hw haid hlog
    obtain ⟨t', ht', ha, hplace⟩ := hw.tree
    obtain rfl : t = t' := Option.some.inj (ht.symm.trans ht')
    obtain ⟨ha₁, htodo, hplace₁⟩ := dumpStart_place hsub (hi.ok _ _ ht) hstart ha hplace
    exact dumpWalk_own henv hsub hwalk hi₀.ok hpts₀ ht₀ htodo ha₁ haid hlog hplace₁
  refine ⟨RibDumps.walkLog env upcall ctx' todo 0 ((s.setTree ctx'.id t₁).setRe ctx'.addr none),
    walkLog_done, ?_⟩
  unfold RibDumps.ribDumpRLog
  simp only [hfind, ht, Option.bind_some, hstart, hwalk]
  cases paused with
  -- no entry to pause at: the context goes
  | none =>
    cases h
    refine Or.inr ⟨rfl, fun hmem => ?_, fun p pt n hw haid hlog => ?_⟩
    · obtain ⟨c, hc, haddr⟩ := List.mem_map.mp hmem
      have := (List.mem_filter.mp hc).2
      simp [haddr] at this
    · obtain ⟨t', -, -, hp⟩ := hround p pt n hw haid hlog
      exact hp
  -- the context is locked to the entry
  | some q =>
    cases h
    have hmem : { ctx' with re := some q } ∈ (s₁.setRe ctx'.addr (some q)).dumps := by
      have hmem₀ : { ctx' with re := none } ∈ s₁.dumps := by
        rw [hk.dumps]
        exact List.mem_map.mpr ⟨ctx', hctx, if_pos rfl⟩
      exact List.mem_map.mpr ⟨_, hmem₀, if_pos rfl⟩
    refine Or.inl ⟨List.append_nil _, q, hmem, fun p pt n hw haid hlog => ⟨hmem, ?_⟩⟩
    obtain ⟨t', ht', ha', hp⟩ := hround p pt n hw haid hlog
    exact ⟨t', ht', ha', Or.inr ⟨by simp, hp⟩⟩

/-! ## Runs -/

/-- The comparison of a table finds an entry by being 0 for it and for no other one. -/
structure TableEnv extends DumpEnv where
  separates : toDumpEnv.Separates

/-- The entry has to be visited by a walk of the RIB for the address family: it had paths when
    the walk was created, and it keeps one. -/
def Due (s₁ : RibDumps) (id : ℕ) (aid : Option Aid) (log : List DumpObs) (p : Ptr) : Prop :=
  (∃ t e, s₁.ribs id = some t ∧ e ∈ t ∧ e.ptr = p ∧ e.prefixes ≠ 0 ∧
    (aid = none ∨ aid = some e.pt.aid)) ∧ .emptied id p ∉ log

/-- The walk is still going on, and no entry was visited twice. -/
def WalkGoesOn (s₁ : RibDumps) (addr : Ptr) (id : ℕ) (aid : Option Aid) (s : RibDumps)
    (log : List DumpObs) : Prop :=
  addr ∈ s.dumps.map (·.addr) ∧ .done addr ∉ log ∧
    ∀ p, Due s₁ id aid log p → (callsOf addr log).count p ≤ 1

/-- The walk is over: `ctx_done` was called once, with no call of the callback behind it, and
    before it the callback was called once for every entry that had to be visited. -/
def WalkIsOver (s₁ : RibDumps) (addr : Ptr) (id : ℕ) (aid : Option Aid) (s : RibDumps)
    (log : List DumpObs) : Prop :=
  addr ∉ s.dumps.map (·.addr) ∧ ∃ pre post, log = pre ++ .done addr :: post ∧
    .done addr ∉ pre ∧ .done addr ∉ post ∧ (∀ p, .call addr p ∉ post) ∧
    ∀ p, Due s₁ id aid pre p → (callsOf addr pre).count p = 1

/-- What a run keeps: as long as the context is there, every entry that has to be visited has
    its place. -/
structure OnceInv (s₁ : RibDumps) (addr : Ptr) (id : ℕ) (aid : Option Aid) (arg : ℕ)
    (s : RibDumps) (log : List DumpObs) : Prop where
  inv : DumpInv s
  pts : PtsOk s
  walk : (∃ ctx ∈ s.dumps, ctx.addr = addr ∧ ctx.id = id ∧ ctx.aid = aid ∧ ctx.arg = arg ∧
      ctx.subtree = none ∧ .done addr ∉ log ∧
      ∀ p, Due s₁ id aid log p → ∃ pt, (aid = none ∨ aid = some pt.aid) ∧
        Walking s ctx p pt ((callsOf addr log).count p)) ∨
    WalkIsOver s₁ addr id aid s log

theorem Due.mono {s₁ : RibDumps} {aid : Option Aid} (h : Due s₁ id aid (log ++ log') p) :
    Due s₁ id aid log p :=
  ⟨h.1, fun hp => h.2 (List.mem_append_left _ hp)⟩

theorem OnceInv.create {aid : Option Aid} {count arg : ℕ} {upcall : RibDumps.Upcall}
    (hi : DumpInv s) (hpts : PtsOk s) (hcount : 0 < count)
    (h : s.ribDumpNew env upcall addr id aid count arg = some s₁) :
    OnceInv s₁ addr id aid arg s₁ [] := by
  have hi₁ := hi.ribDumpNew h
  unfold RibDumps.ribDumpNew at h
  obtain ⟨t, ht, h⟩ := Option.bind_eq_some_iff.mp h
  unfold RibDumps.dumpInsert at h
  split_ifs at h with hfresh hzero
  · exact absurd hzero hcount.ne'
  · cases h
    refine ⟨hi₁, hpts, Or.inl ⟨_, List.mem_cons_self, rfl, rfl, rfl, rfl, rfl, by simp, ?_⟩⟩
    rintro p ⟨⟨t', e, ht', he, hptr, hne, haid⟩, -⟩
    exact ⟨e.pt, haid, List.mem_cons_self, t', ht', ⟨e, he, hptr, rfl, hne⟩, Or.inl ⟨rfl, rfl⟩⟩

/-- One event. -/
theorem OnceInv.step {s₀ : RibDumps} {aid : Option Aid} {arg : ℕ} {e : DumpEvent}
    (henv : env.Separates) (h : OnceInv s₀ addr id aid arg s log) (hsub : SubtreeOk env s e)
    (he : Apart addr id arg e) (hs : dumpStep env s e = some s') :
    OnceInv s₀ addr id aid arg s' (log ++ dumpLog env s e) := by
  refine ⟨h.inv.step hsub hs, dumpStep_ptsOk henv h.inv h.pts hsub hs, ?_⟩
  rcases h.walk with ⟨ctx, hctx, rfl, rfl, rfl, rfl, htree, hdone, hdue⟩ | ⟨hgone, hover⟩
  · by_cases hown : ∃ upcall, e = .dumpR upcall ctx.addr
    · obtain ⟨upcall, rfl⟩ := hown
      obtain ⟨l, hl, ⟨hlog, q, hmem, hw⟩ | ⟨hlog, hgone, hw⟩⟩ :=
        ribDumpR_own henv h.inv h.pts hctx htree hs
      · -- the round pauses
        have hlog : dumpLog env s (.dumpR upcall ctx.addr) = l := hlog
        rw [hlog]
        refine Or.inl ⟨_, hmem, rfl, rfl, rfl, rfl, htree, ?_, fun p hp => ?_⟩
        · exact fun hd => (List.mem_append.mp hd).elim hdone hl
        · obtain ⟨pt, haid, hwalk⟩ := hdue p hp.mono
          refine ⟨pt, haid, ?_⟩
          rw [callsOf_append, List.count_append]
          exact hw p pt _ hwalk haid fun hp' => hp.2 (List.mem_append_right _ hp')
      · -- the round ends the walk
        have hlog : dumpLog env s (.dumpR upcall ctx.addr) = l ++ [.done ctx.addr] := hlog
        rw [hlog]
        refine Or.inr ⟨hgone, log ++ l, [], by simp, ?_, by simp, by simp, fun p hp => ?_⟩
        · exact fun hd => (List.mem_append.mp hd).elim hdone hl
        · obtain ⟨pt, haid, hwalk⟩ := hdue p hp.mono
          rw [callsOf_append, List.count_append]
          exact hw p pt _ hwalk haid fun hp' => hp.2 (List.mem_append_right _ hp')
    · have hf : Foreign ctx.addr (dumpLog env s e) s s' := by
        refine dumpStep_foreign h.inv hsub (fun c hc haddr => ?_) he
          (fun upcall heq => hown ⟨upcall, heq⟩) hs
        rw [h.inv.eq_of_addr hc hctx haddr]
        exact ⟨rfl, rfl⟩
      refine Or.inl ⟨ctx, hf.ctx ctx hctx rfl, rfl, rfl, rfl, rfl, htree, ?_, fun p hp => ?_⟩
      · exact fun hd => (List.mem_append.mp hd).elim hdone hf.done
      · obtain ⟨pt, haid, hwalk⟩ := hdue p hp.mono
        refine ⟨pt, haid, ?_⟩
        rw [callsOf_append, callsOf_eq_nil hf.calls, List.append_nil]
        exact hwalk.foreign h.inv hf fun hp' => hp.2 (List.mem_append_right _ hp')
  · -- the context is gone, and there is no round of it
    have hno : ∀ c ∈ s.dumps, c.addr ≠ addr := fun c hc haddr =>
      hgone (haddr ▸ List.mem_map_of_mem hc)
    have hf : Foreign addr (dumpLog env s e) s s' := by
      refine dumpStep_foreign h.inv hsub (fun c hc haddr => absurd haddr (hno c hc)) he ?_ hs
      rintro upcall rfl
      simp only [dumpStep, RibDumps.ribDumpR] at hs
      obtain ⟨c, hfind, -⟩ := Option.bind_eq_some_iff.mp hs
      exact hno c (List.mem_of_find?_eq_some hfind) (by simpa using List.find?_some hfind)
    obtain ⟨pre, post, rfl, hpre, hpost, hcalls, hdue⟩ := hover
    refine Or.inr ⟨fun hmem => hgone (hf.back hmem), pre, post ++ dumpLog env s e, by simp, hpre,
      fun hd => (List.mem_append.mp hd).elim hpost hf.done,
      fun p hp => (List.mem_append.mp hp).elim (hcalls p) (hf.calls p), hdue⟩

/-- For every context that `rib_dump_new` creates, whatever else happens in the meantime: when
    it ends, its callback was called exactly once for every entry of the RIB that matches and
    kept a path all the time, and then `ctx_done` was called, once. -/
theorem rib_dump_exactly_once (env : TableEnv) {es₀ es : List DumpEvent} {s₀ s₁ s : RibDumps}
    {log : List DumpObs} {upcall : RibDumps.Upcall} {addr : Ptr} {id : ℕ} {aid : Option Aid}
    {count arg : ℕ}
    (h₀ : Run (dumpStep env.toDumpEnv) (SubtreeOk env.toDumpEnv) {} es₀ s₀) (hcount : 0 < count)
    (hnew : s₀.ribDumpNew env.toDumpEnv upcall addr id aid count arg = some s₁)
    (h : Run (dumpLogStep env.toDumpEnv)
      (fun x e => SubtreeOk env.toDumpEnv x.1 e ∧ Apart addr id arg e) (s₁, []) es (s, log)) :
    WalkGoesOn s₁ addr id aid s log ∨ WalkIsOver s₁ addr id aid s log := by
  have hinv₀ : DumpInv s₀ ∧ PtsOk s₀ :=
    h₀.invariant (P := fun s => DumpInv s ∧ PtsOk s)
      (fun _ _ _ hi he hs => ⟨hi.1.step he hs, dumpStep_ptsOk env.separates hi.1 hi.2 he hs⟩)
      ⟨DumpInv.init, by simp [PtsOk]⟩
  have hinv : OnceInv s₁ addr id aid arg s log := by
    refine h.invariant (P := fun x => OnceInv s₁ addr id aid arg x.1 x.2) ?_
      (OnceInv.create hinv₀.1 hinv₀.2 hcount hnew)
    rintro x e x' hx ⟨hsub, he⟩ hs
    obtain ⟨s', hs', rfl⟩ := Option.map_eq_some_iff.mp hs
    exact hx.step env.separates hsub he hs'
  rcases hinv.walk with ⟨ctx, hctx, rfl, -, -, -, -, hdone, hdue⟩ | hover
  · refine Or.inl ⟨List.mem_map_of_mem hctx, hdone, fun p hp => ?_⟩
    obtain ⟨pt, -, hw⟩ := hdue p hp
    obtain ⟨t, -, -, ⟨-, hn⟩ | ⟨hne, hplace⟩⟩ := hw.tree
    · omega
    · obtain ⟨q, hq⟩ := Option.ne_none_iff_exists'.mp hne
      rw [hq] at hplace
      rcases hplace with ⟨-, hn⟩ | ⟨-, hn⟩
      · omega
      · omega
  · exact Or.inr hover

/-- The order by family, address and prefix length. -/
def sampleTable : TableEnv where
  ptPrefixCmp a b :=
    (compare a.aid.val b.aid.val).then <|
      (compare a.data b.data).then (compare a.prefixlen b.prefixlen)
  ptFill := sampleEnv.ptFill
  inSubtree := sampleEnv.inSubtree
  separates := by
    intro a b
    rw [Ordering.then_eq_eq, Ordering.then_eq_eq, compare_eq_iff_eq, compare_eq_iff_eq,
      compare_eq_iff_eq]
    constructor
    · rintro ⟨haid, hdata, hlen⟩
      obtain ⟨aid, data, len⟩ := a
      obtain ⟨aid', data', len'⟩ := b
      obtain rfl : aid = aid' := by
        cases aid <;> cases aid' <;> first | rfl | cases haid
      obtain rfl : data = data' := hdata
      obtain rfl : len = len' := hlen
      rfl
    · rintro rfl
      exact ⟨rfl, rfl, rfl⟩

/-- A walk over two entries, one of which goes away and comes back behind it. -/
theorem rib_dump_exactly_once_sample :
    ∃ s₁ s log, (∃ s₀, Run (dumpStep sampleTable.toDumpEnv) (SubtreeOk sampleTable.toDumpEnv) {}
        [.ribNew 2, .entryOp 2 (samplePt 1) { add := some 1 },
          .entryOp 2 (samplePt 2) { add := some 2 }] s₀ ∧
        s₀.ribDumpNew sampleTable.toDumpEnv (fun _ => []) 1 2 none 1 1 = some s₁) ∧
      log = [.call 1 1, .emptied 2 1, .call 1 2, .done 1] ∧
      (WalkGoesOn s₁ 1 2 none s log ∨ WalkIsOver s₁ 1 2 none s log) := by
  obtain ⟨s₀, h₀, hs₀⟩ := exists_run (dumpStep sampleTable.toDumpEnv)
    (SubtreeOk sampleTable.toDumpEnv) {}
    [.ribNew 2, .entryOp 2 (samplePt 1) { add := some 1 },
      .entryOp 2 (samplePt 2) { add := some 2 }]
    (fun s₀ => ((s₀.ribDumpNew sampleTable.toDumpEnv (fun _ => []) 1 2 none 1 1).any fun s₁ =>
      (execRun (dumpLogStep sampleTable.toDumpEnv)
        (fun x e => SubtreeOk sampleTable.toDumpEnv x.1 e ∧ Apart 1 2 1 e) (s₁, [])
        [.dumpR (fun _ => []) 1, .entryOp 2 (samplePt 1) { del := true },
          .entryOp 2 (samplePt 1) { add := some 3 }, .dumpR (fun _ => []) 1]).any fun x =>
        x.2 = [.call 1 1, .emptied 2 1, .call 1 2, .done 1]) = true) (by decide)
  cases hnew : s₀.ribDumpNew sampleTable.toDumpEnv (fun _ => []) 1 2 none 1 1 with
  | none => simp [hnew] at hs₀
  | some s₁ =>
    rw [hnew, Option.any_some] at hs₀
    obtain ⟨x, hrun, hlog⟩ := exists_run (dumpLogStep sampleTable.toDumpEnv) _ (s₁, []) _ _ hs₀
    exact ⟨s₁, x.1, x.2, ⟨s₀, h₀, hnew⟩, hlog,
      rib_dump_exactly_once sampleTable h₀ (by decide) hnew hrun⟩

end Bgpd.Rde.Dump
