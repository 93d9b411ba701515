import Bgpd.Rde.AdjoutWalkSpec

/-!
# Walks over an Adj-RIB-Out Are Complete

The prefix table is sorted, so the entries that a walk has visited are those before the entry at
which it is paused. A walk of a flowspec family is over before it begins.

## Main results

- `round_calls`: what a round visits
- `walkEvent_foreign`: everything else that happens
- `adjout_walk_flowspec`: a walk of a flowspec family calls nothing
- `adjout_walk_exactly_once`: the callback is called once for every entry
-/

namespace Bgpd.Rde.AdjoutWalk

open Bgpd.Lib Std
open Nlri (ptPrefixCmp ptFill padTo)

variable {addr : Ptr} {q q' : PeerId} {id : ℕ} {upcall : Upcall} {ctx : WalkContext}
  {k pt : Nlri.PtEntry} {n n' : PtNode} {log log' : List WalkObs}
  {s s' s₁ : AdjoutWalks} {t t' : List PtNode} {d : List WalkContext}

/-! ## What is lost -/

/-- The peer has an entry for the destination with the path id. -/
def Has (s : AdjoutWalks) (pt : Nlri.PtEntry) (q : PeerId) (id : ℕ) : Prop :=
  ∃ n ∈ s.table, n.pt = pt ∧ HasBit n.adjout q id

theorem mem_lostWith (h : HasBit n.adjout q id) : .lost n.pt q id ∈ lostWith n := by
  obtain ⟨p, hp, rfl, hq⟩ := h
  exact List.mem_flatMap.mpr ⟨p, hp, List.mem_map.mpr ⟨q, hq, rfl⟩⟩

/-- The entries of a table that another one still has. -/
def TableHas (log : List WalkObs) (t t' : List PtNode) : Prop :=
  ∀ n ∈ t, ∀ q id, HasBit n.adjout q id →
    (∃ n' ∈ t', n'.pt = n.pt ∧ HasBit n'.adjout q id) ∨ .lost n.pt q id ∈ log

theorem TableHas.refl (t : List PtNode) : TableHas log t t :=
  fun n hn _ _ hb => Or.inl ⟨n, hn, rfl, hb⟩

theorem TableHas.trans {t₁ : List PtNode} (h : TableHas log t t₁) (h' : TableHas log' t₁ t') :
    TableHas (log ++ log') t t' := by
  intro n hn q id hb
  rcases h n hn q id hb with ⟨n₁, hn₁, hpt, hb₁⟩ | hlost
  · rw [← hpt]
    exact (h' n₁ hn₁ q id hb₁).imp_right (List.mem_append_right _)
  · exact Or.inr (List.mem_append_left _ hlost)

theorem TableHas.mono (h : TableHas log t t') (hlog : ∀ x ∈ log, x ∈ log') :
    TableHas log' t t' := fun n hn q id hb => (h n hn q id hb).imp_right (hlog _)

theorem tableHas_unref {pre rest rest' : List PtNode} (h : n.unref rest = some (rest', log)) :
    TableHas log (pre ++ n :: rest) (pre ++ rest') := by
  intro m hm q id hb
  rcases unref_spec h with ⟨-, rfl, rfl⟩ | ⟨-, rfl, rfl⟩
  · rcases List.mem_append.mp hm with hm | hm
    · exact Or.inl ⟨m, List.mem_append_left _ hm, rfl, hb⟩
    · rcases List.mem_cons.mp hm with rfl | hm
      · exact Or.inr (mem_lostWith hb)
      · exact Or.inl ⟨m, List.mem_append_right _ hm, rfl, hb⟩
  · left
    rcases List.mem_append.mp hm with hm | hm
    · exact ⟨m, List.mem_append_left _ hm, rfl, hb⟩
    · rcases List.mem_cons.mp hm with rfl | hm
      · exact ⟨_, List.mem_append_right _ List.mem_cons_self, rfl, hb⟩
      · exact ⟨m, List.mem_append_right _ (List.mem_cons_of_mem _ hm), rfl, hb⟩

theorem tableHas_nodes {pre l l' r r' : List PtNode} (hwf : ∀ n ∈ l, AdjoutWf n.adjout)
    (hk : NodesKept log l l') (hr : ∀ n ∈ r, ∃ n' ∈ r', n'.pt = n.pt ∧ n'.adjout = n.adjout) :
    TableHas log (pre ++ (l ++ r)) (pre ++ (l' ++ r')) := by
  intro n hn q id hb
  rcases List.mem_append.mp hn with hn | hn
  · exact Or.inl ⟨n, List.mem_append_left _ hn, rfl, hb⟩
  · rcases List.mem_append.mp hn with hn | hn
    · obtain ⟨n', hn', hkept⟩ := hk.exists_right hn
      rcases hkept.has (hwf n hn) q id hb with hb | hlost
      · exact Or.inl ⟨n', List.mem_append_right _ (List.mem_append_left _ hn'), hkept.pt, hb⟩
      · exact Or.inr hlost
    · obtain ⟨n', hn', hpt, hadj⟩ := hr n hn
      exact Or.inl ⟨n', List.mem_append_right _ (List.mem_append_right _ hn'), hpt, hadj ▸ hb⟩

theorem tableHas_map {f : PtNode → PtNode} (hpt : ∀ n, (f n).pt = n.pt)
    (hf : ∀ n ∈ t, n.pt = k → ∀ q id, HasBit n.adjout q id →
      HasBit (f n).adjout q id ∨ .lost n.pt q id ∈ log) :
    TableHas log t (t.map fun n => if n.pt = k then f n else n) := by
  intro n hn q id hb
  by_cases hk : n.pt = k
  · rcases hf n hn hk q id hb with hb | hlost
    · exact Or.inl ⟨f n, List.mem_map.mpr ⟨n, hn, if_pos hk⟩, hpt n, hb⟩
    · exact Or.inr hlost
  · exact Or.inl ⟨n, List.mem_map.mpr ⟨n, hn, if_neg hk⟩, rfl, hb⟩

theorem tableHas_ptUnref (h : ptUnref k t = some (t', log)) : TableHas log t t' := by
  obtain ⟨pre, n, rest, rest', rfl, -, hunref, rfl⟩ := ptUnref_spec h
  exact tableHas_unref hunref

/-! ## The rounds of a context -/

theorem visitEntries_log {es : List (ℕ × AdjoutPrefix)} {x : WalkObs}
    (hx : x ∈ (visitEntries addr q upcall es n).2) :
    (∃ pt id, x = .call addr pt id) ∨ ∃ pt q id, x = .lost pt q id := by
  induction es generalizing n with
  | nil => cases hx
  | cons e es ih =>
    obtain ⟨i, p⟩ := e
    rw [visitEntries] at hx
    rcases List.mem_cons.mp hx with rfl | hx
    · exact Or.inl ⟨_, _, rfl⟩
    · rcases List.mem_append.mp hx with hx | hx
      · by_cases hw : (upcall n.pt p).withdraw = true
        · rw [if_pos hw] at hx
          exact Or.inr ⟨_, _, _, List.mem_singleton.mp hx⟩
        · rw [if_neg hw] at hx
          cases hx
      · exact ih hx

/-- A round logs only its own calls and lost entries. -/
theorem dumpLoop_log {i : ℕ} {rest rest' : List PtNode} {paused : Option Nlri.PtEntry}
    (h : dumpLoop ctx q upcall i rest = (rest', log, paused)) {x : WalkObs} (hx : x ∈ log) :
    (∃ pt id, x = .call ctx.addr pt id) ∨ ∃ pt q id, x = .lost pt q id := by
  induction rest generalizing i rest' log paused with
  | nil =>
    cases h
    cases hx
  | cons n rest ih =>
    rw [dumpLoop] at h
    split_ifs at h
    · rcases hd : dumpLoop ctx q upcall i rest with ⟨next, log₁, paused₁⟩
      rw [hd] at h
      cases h
      exact ih hd hx
    · cases h
      cases hx
    · rcases hv : visit ctx.addr q upcall n with ⟨n₁, log₁⟩
      rcases hd : dumpLoop ctx q upcall (i + 1) rest with ⟨next, log₂, paused₂⟩
      rw [hv, hd] at h
      cases h
      rcases List.mem_append.mp hx with hx | hx
      · have hlog : (visit ctx.addr q upcall n).2 = log₁ := by rw [hv]
        rw [← hlog] at hx
        exact visitEntries_log hx
      · exact ih hd hx

theorem unref_log {rest rest' : List PtNode} (h : n.unref rest = some (rest', log))
    {x : WalkObs} (hx : x ∈ log) : ∃ pt q id, x = .lost pt q id := by
  rcases unref_spec h with ⟨-, -, rfl⟩ | ⟨-, -, rfl⟩
  · obtain ⟨p, -, hx⟩ := List.mem_flatMap.mp hx
    obtain ⟨q, -, rfl⟩ := List.mem_map.mp hx
    exact ⟨_, _, _, rfl⟩
  · cases hx

theorem roundStart_log {pre rest : List PtNode} (h : s.roundStart ctx = some (pre, rest, log))
    {x : WalkObs} (hx : x ∈ log) : ∃ pt q id, x = .lost pt q id := by
  rcases roundStart_spec h with ⟨-, -, rfl, -⟩ | ⟨n, rest₀, -, -, hunref⟩
  · cases hx
  · exact unref_log hunref hx

/-- A round and the table: what it loses is logged. -/
theorem dumpR_tableHas (hi : WalkInv s)
    (h : s.adjoutPrefixDumpR upcall addr = some (s', log)) : TableHas log s.table s'.table := by
  obtain ⟨ctx, hc, rfl, ⟨-, rfl, -⟩ | ⟨q, pre, rest, lost, rest', log', paused, -, hstart, hloop,
    hend⟩⟩ := dumpR_cases h
  · exact TableHas.refl _
  obtain ⟨l, r, hd, -, -⟩ := context_split hi.addrs hc
  have hi₀ := hi.roundStart hd hstart
  have h₁ : TableHas lost s.table (pre ++ rest) := by
    rcases roundStart_spec hstart with ⟨-, ht, -⟩ | ⟨n, rest₀, -, ht, hunref⟩
    · rw [ht]
      exact TableHas.refl _
    · rw [ht]
      exact tableHas_unref hunref
  have h₂ : TableHas log' (pre ++ rest) (pre ++ rest') := by
    have hwf : ∀ n ∈ rest, AdjoutWf n.adjout := fun n hn =>
      hi₀.wf n (List.mem_append_right _ hn)
    obtain ⟨l₁, r₁, l₁', rfl, hk, -, ⟨-, rfl, rfl⟩ | ⟨n, r', rfl, -, rfl⟩⟩ :=
      dumpLoop_spec hwf hloop
    · simp only [List.append_nil] at hwf ⊢
      have hnodes := @tableHas_nodes log' pre _ _ [] [] hwf hk (by simp)
      simpa using hnodes
    · refine tableHas_nodes (fun n hn => hwf n (List.mem_append_left _ hn)) hk fun m hm => ?_
      rcases List.mem_cons.mp hm with rfl | hm
      · exact ⟨_, List.mem_cons_self, rfl, rfl⟩
      · exact ⟨m, List.mem_cons_of_mem _ hm, rfl, rfl⟩
  have h₁₂ := h₁.trans h₂
  obtain ⟨k, -, rfl, rfl⟩ | ⟨-, rfl, rfl⟩ := hend
  · exact h₁₂
  · exact h₁₂.mono fun x hx => List.mem_append_left _ hx

theorem has_of_tableHas (h : TableHas log s.table s'.table) (hh : Has s pt q id) :
    Has s' pt q id ∨ .lost pt q id ∈ log := by
  obtain ⟨n, hn, rfl, hb⟩ := hh
  exact h n hn q id hb

/-- What a round begins with is not before the entry at which the context paused. -/
theorem roundStart_ge (hi : WalkInv s) {pre rest : List PtNode}
    (h : s.roundStart ctx = some (pre, rest, log)) (hn : n ∈ rest) :
    ∀ k ∈ ctx.pt, ptPrefixCmp n.pt k ≠ .lt := by
  intro k hk
  rcases roundStart_spec h with ⟨hnone, -⟩ | ⟨m, rest₀, hpt, ht, hunref⟩
  · rw [hnone] at hk
    cases hk
  rw [hpt] at hk
  cases hk
  have hm : m ∈ s.table := by simp [ht]
  have hself : ptPrefixCmp m.pt m.pt ≠ .lt := by
    rw [cmp_self (hi.ok m hm)]
    simp
  have hbehind : ∀ n ∈ rest₀, ptPrefixCmp n.pt m.pt ≠ .lt := by
    intro n hn
    have hsorted := hi.sorted
    rw [ht, List.map_append, List.map_cons, List.pairwise_append, List.pairwise_cons] at hsorted
    exact not_lt_of_lt (hi.ok m hm) (hi.ok n (by simp [ht, hn]))
      (hsorted.2.1.1 n.pt (List.mem_map_of_mem hn))
  rcases unref_spec hunref with ⟨-, rfl, -⟩ | ⟨-, rfl, -⟩
  · exact hbehind n hn
  · rcases List.mem_cons.mp hn with rfl | hn
    · exact hself
    · exact hbehind n hn

/-- An entry of the family that is not before the cursor is among those that a round begins
    with, unless it is lost with the last reference of the cursor. -/
theorem roundStart_has (hi : WalkInv s) {pre rest : List PtNode}
    (h : s.roundStart ctx = some (pre, rest, log)) (hh : Has s pt q id)
    (haid : ctx.aid = none ∨ ctx.aid = some pt.aid) (hflow : ∀ aid ∈ ctx.aid, isFlow aid = false)
    (hge : ∀ k ∈ ctx.pt, ptPrefixCmp pt k ≠ .lt) :
    (∃ n ∈ rest, n.pt = pt ∧ HasBit n.adjout q id) ∨ .lost pt q id ∈ log := by
  obtain ⟨n, hn, rfl, hb⟩ := hh
  rcases roundStart_spec h with ⟨-, ht, -, hbefore, hall⟩ | ⟨m, rest₀, hpt, ht, hunref⟩
  · rw [ht] at hn
    refine Or.inl ⟨n, (List.mem_append.mp hn).resolve_left fun hpre => ?_, rfl, hb⟩
    rcases haid with haid | haid
    · rw [hall haid] at hpre
      cases hpre
    · -- the key of the family is not greater than the entry
      obtain ⟨k, hfill, hle⟩ := ptFirst_le (hflow _ haid) (hi.ok n (by simp [ht, hpre])) rfl
      have hgt := hbefore _ haid n hpre
      rw [hfill] at hgt
      exact hle (by simpa [isBefore] using hgt)
  · rw [ht] at hn
    rcases List.mem_append.mp hn with hpre | hn
    · have hsorted := hi.sorted
      rw [ht, List.map_append, List.pairwise_append] at hsorted
      exact absurd (hsorted.2.2 n.pt (List.mem_map_of_mem hpre) m.pt (by simp)) (hge m.pt hpt)
    · rcases unref_spec hunref with ⟨-, rfl, rfl⟩ | ⟨-, rfl, -⟩
      · rcases List.mem_cons.mp hn with rfl | hn
        · exact Or.inr (mem_lostWith hb)
        · exact Or.inl ⟨n, hn, rfl, hb⟩
      · rcases List.mem_cons.mp hn with rfl | hn
        · exact Or.inl ⟨_, List.mem_cons_self, rfl, hb⟩
        · exact Or.inl ⟨n, List.mem_cons_of_mem _ hn, rfl, hb⟩

theorem mem_callsFor {x : Nlri.PtEntry × ℕ} (hwf : AdjoutWf n.adjout) :
    x ∈ callsFor q n ↔ x.1 = n.pt ∧ HasBit n.adjout q x.2 := by
  rw [hasBit_iff hwf, callsFor, List.mem_map, List.mem_map]
  constructor
  · rintro ⟨e, he, rfl⟩
    exact ⟨rfl, e, he, rfl⟩
  · rintro ⟨hpt, e, he, hid⟩
    exact ⟨e, he, Prod.ext hpt.symm hid⟩

theorem callsFor_nodup (hwf : AdjoutWf n.adjout) : (callsFor q n).Nodup := by
  have h := (prefixes_nodup hwf q).map (f := fun id => (n.pt, id)) fun a b hab =>
    congrArg Prod.snd hab
  rwa [List.map_map] at h

/-- The calls of a round. -/
theorem round_calls (hi : WalkInv s) (hc : ctx ∈ s.dumps) {pre rest rest' : List PtNode}
    {lost : List WalkObs} {paused : Option Nlri.PtEntry}
    (hstart : s.roundStart ctx = some (pre, rest, lost))
    (hloop : dumpLoop ctx q upcall 0 rest = (rest', log, paused)) :
    (callsOf ctx.addr (lost ++ log)).Nodup ∧
      (∀ x ∈ callsOf ctx.addr (lost ++ log), x.1.Ok ∧
        (ctx.aid = none ∨ ctx.aid = some x.1.aid) ∧ (∀ k ∈ ctx.pt, ptPrefixCmp x.1 k ≠ .lt) ∧
        ∀ k ∈ paused, ptPrefixCmp x.1 k = .lt) ∧
      (∀ k ∈ paused, k.Ok ∧ ∀ k₀ ∈ ctx.pt, ptPrefixCmp k k₀ ≠ .lt) ∧
      ∀ pt id, Has s pt q id → (ctx.aid = none ∨ ctx.aid = some pt.aid) →
        (∀ aid ∈ ctx.aid, isFlow aid = false) → (∀ k ∈ ctx.pt, ptPrefixCmp pt k ≠ .lt) →
        (pt, id) ∈ callsOf ctx.addr (lost ++ log) ∨ .lost pt q id ∈ lost ∨
          ∃ k ∈ paused, ptPrefixCmp pt k ≠ .lt := by
  obtain ⟨dl, dr, hd, -, -⟩ := context_split hi.addrs hc
  have hi₀ := hi.roundStart hd hstart
  have hwf : ∀ n ∈ rest, AdjoutWf n.adjout := fun n hn => hi₀.wf n (List.mem_append_right _ hn)
  have hok : ∀ n ∈ rest, n.pt.Ok := fun n hn => hi₀.ok n (List.mem_append_right _ hn)
  have hge : ∀ n ∈ rest, ∀ k ∈ ctx.pt, ptPrefixCmp n.pt k ≠ .lt := fun n hn =>
    roundStart_ge hi hstart hn
  -- what is lost at the start of a round is no call
  have hlost : callsOf ctx.addr lost = [] := by
    rw [List.eq_nil_iff_forall_not_mem]
    intro x hx
    obtain ⟨_, _, _, h⟩ := roundStart_log hstart (mem_callsOf.mp hx)
    cases h
  have hhas : ∀ pt id, Has s pt q id → _ := fun pt id => roundStart_has hi hstart
  obtain ⟨l, r, l', rfl, -, hcalls, hpause⟩ := dumpLoop_spec hwf hloop
  rw [callsOf_append, hlost, List.nil_append, hcalls]
  -- the order of the table
  have hsorted := hi₀.sorted
  simp only [List.map_append] at hsorted
  obtain ⟨-, hrest, -⟩ := List.pairwise_append.mp hsorted
  obtain ⟨hl, hr, hlr⟩ := List.pairwise_append.mp hrest
  have hmem : ∀ {x}, x ∈ (l.filter (aidOk ctx.aid)).flatMap (callsFor q) ↔
      ∃ n ∈ l, aidOk ctx.aid n = true ∧ x.1 = n.pt ∧ HasBit n.adjout q x.2 := by
    intro x
    rw [List.mem_flatMap]
    constructor
    · rintro ⟨n, hn, hx⟩
      obtain ⟨hn, ha⟩ := List.mem_filter.mp hn
      exact ⟨n, hn, ha, (mem_callsFor (hwf n (List.mem_append_left _ hn))).mp hx⟩
    · rintro ⟨n, hn, ha, hx⟩
      exact ⟨n, List.mem_filter.mpr ⟨hn, ha⟩,
        (mem_callsFor (hwf n (List.mem_append_left _ hn))).mpr hx⟩
  refine ⟨?_, fun x hx => ?_, fun k hk => ?_, fun pt id hh haid hflow hcur => ?_⟩
  · refine List.nodup_flatMap.mpr ⟨fun n hn => ?_, ?_⟩
    · exact callsFor_nodup (hwf n (List.mem_append_left _ (List.mem_filter.mp hn).1))
    · -- the calls for two entries of the table are about different destinations
      refine ((List.pairwise_map.mp hl).filter _).imp_of_mem fun {a b} ha hb hlt => ?_
      intro x hxa hxb
      have ha' := List.mem_append_left r (List.mem_filter.mp ha).1
      have hb' := List.mem_append_left r (List.mem_filter.mp hb).1
      refine sorted_ne (fun n hn => hok n hn) ha' hlt ?_
      exact ((mem_callsFor (hwf a ha')).mp hxa).1.symm.trans ((mem_callsFor (hwf b hb')).mp hxb).1
  · obtain ⟨n, hn, ha, hpt, -⟩ := hmem.mp hx
    rw [hpt]
    -- only destinations before the pause are visited
    refine ⟨hok n (List.mem_append_left _ hn), ?_, hge n (List.mem_append_left _ hn), ?_⟩
    · simpa [aidOk] using ha
    · intro k hk
      obtain ⟨rfl, -⟩ | ⟨m, r', rfl, rfl, -⟩ := hpause
      · cases hk
      · cases hk
        exact hlr n.pt (List.mem_map_of_mem hn) m.pt (by simp)
  -- the pause is an entry of the table, and behind the cursor
  · obtain ⟨rfl, -⟩ | ⟨m, r', rfl, rfl, -⟩ := hpause
    · cases hk
    · cases hk
      exact ⟨hok m (by simp), hge m (by simp)⟩
  · rcases hhas pt id hh haid hflow hcur with ⟨n, hn, rfl, hb⟩ | hl
    · rcases List.mem_append.mp hn with hn | hn
      · exact Or.inl (hmem.mpr ⟨n, hn, by simpa [aidOk] using haid, rfl, hb⟩)
      · -- the round paused before the entry
        obtain ⟨-, rfl, -⟩ | ⟨m, r', rfl, rfl, -⟩ := hpause
        · cases hn
        · refine Or.inr (Or.inr ⟨m.pt, rfl, ?_⟩)
          rcases List.mem_cons.mp hn with rfl | hn'
          · rw [cmp_self (hok n (by simp))]
            simp
          · rw [List.map_cons, List.pairwise_cons] at hr
            exact not_lt_of_lt (hok m (by simp)) (hok n (by simp [hn']))
              (hr.1 n.pt (List.mem_map_of_mem hn'))
    · exact Or.inr (Or.inl hl)

/-! ## Other events -/

/-- Something that is not about the context at the address: the context stays and is not called,
    and what the peers lose is logged. -/
structure Foreign (addr : Ptr) (log : List WalkObs) (s s' : AdjoutWalks) : Prop where
  ctx : ∀ c ∈ s.dumps, c.addr = addr → c ∈ s'.dumps
  back : addr ∈ s'.dumps.map (·.addr) → addr ∈ s.dumps.map (·.addr)
  calls : ∀ pt id, .call addr pt id ∉ log
  done : .done addr ∉ log
  has : TableHas log s.table s'.table

theorem Foreign.trans (h : Foreign addr log s s₁) (h' : Foreign addr log' s₁ s') :
    Foreign addr (log ++ log') s s' where
  ctx c hc haddr := h'.ctx c (h.ctx c hc haddr) haddr
  back hmem := h.back (h'.back hmem)
  calls pt id hp := (List.mem_append.mp hp).elim (h.calls pt id) (h'.calls pt id)
  done hd := (List.mem_append.mp hd).elim h.done h'.done
  has := h.has.trans h'.has

theorem Foreign.callsOf (h : Foreign addr log s s') : callsOf addr log = [] := by
  rw [List.eq_nil_iff_forall_not_mem]
  intro x hx
  exact h.calls x.1 x.2 (mem_callsOf.mp hx)

/-- The contexts stay as they are, and the log is about losses. -/
theorem Foreign.table (hd : s'.dumps = s.dumps) (hlog : ∀ x ∈ log, ∃ pt q id, x = .lost pt q id)
    (hhas : TableHas log s.table s'.table) : Foreign addr log s s' where
  ctx c hc _ := hd ▸ hc
  back hmem := hd ▸ hmem
  calls pt id hp := by
    obtain ⟨_, _, _, h⟩ := hlog _ hp
    cases h
  done hp := by
    obtain ⟨_, _, _, h⟩ := hlog _ hp
    cases h
  has := hhas

theorem Foreign.dropContext {a : Ptr} (ha : a ≠ addr) :
    Foreign addr [.done a] s (s.dropContext a) where
  ctx c hc haddr := List.mem_filter.mpr ⟨hc, by simpa [haddr] using ha.symm⟩
  back hmem := by
    obtain ⟨c, hc, rfl⟩ := List.mem_map.mp hmem
    exact List.mem_map_of_mem (List.mem_filter.mp hc).1
  calls := by simp
  done := by simpa using ha.symm
  has := TableHas.refl _

theorem map_addr_setPt (s : AdjoutWalks) (a : Ptr) (x : Option Nlri.PtEntry) :
    (s.setPt a x).dumps.map (·.addr) = s.dumps.map (·.addr) := by
  rw [AdjoutWalks.setPt, List.map_map]
  apply List.map_congr_left
  intro c _
  rw [Function.comp_apply]
  split_ifs <;> rfl

/-- A round of another context. -/
theorem dumpR_foreign (hi : WalkInv s) {a : Ptr} (ha : a ≠ addr)
    (h : s.adjoutPrefixDumpR upcall a = some (s', log)) : Foreign addr log s s' := by
  have hhas := dumpR_tableHas hi h
  obtain ⟨c₀, -, rfl, ⟨-, rfl, rfl⟩ | ⟨q, pre, rest, lost, rest', log', paused, -, hstart, hloop,
    hend⟩⟩ := dumpR_cases h
  · exact Foreign.dropContext ha
  -- the log of the round is about its own context
  have hlog : ∀ x ∈ lost ++ log', (∃ pt id, x = .call c₀.addr pt id) ∨
      ∃ pt q id, x = .lost pt q id := by
    intro x hx
    rcases List.mem_append.mp hx with hx | hx
    · exact Or.inr (roundStart_log hstart hx)
    · exact dumpLoop_log hloop hx
  have hcalls : ∀ pt id, .call addr pt id ∉ lost ++ log' := by
    intro pt id hx
    rcases hlog _ hx with ⟨_, _, heq⟩ | ⟨_, _, _, heq⟩
    · cases heq
      exact ha rfl
    · cases heq
  have hdone : ∀ b, .done b ∉ lost ++ log' := by
    intro b hx
    rcases hlog _ hx with ⟨_, _, heq⟩ | ⟨_, _, _, heq⟩
    · cases heq
    · cases heq
  obtain ⟨k, -, rfl, rfl⟩ | ⟨-, rfl, rfl⟩ := hend
  · refine ⟨fun c hc haddr => ?_, fun hmem => ?_, hcalls, hdone _, hhas⟩
    · exact List.mem_map.mpr ⟨c, hc, if_neg fun h => ha (h.symm.trans haddr)⟩
    · rwa [map_addr_setPt] at hmem
  · have hdrop := Foreign.dropContext (s := { s with table := pre ++ rest' }) ha
    refine ⟨fun c hc haddr => hdrop.ctx c hc haddr, hdrop.back, fun pt id hx => ?_, fun hx => ?_,
      hhas⟩
    · exact (List.mem_append.mp hx).elim (hcalls pt id) (hdrop.calls pt id)
    · exact (List.mem_append.mp hx).elim (hdone addr) hdrop.done

theorem ptUnref_log (h : ptUnref k t = some (t', log)) :
    ∀ x ∈ log, ∃ pt q id, x = .lost pt q id := by
  obtain ⟨_, _, _, _, _, _, hunref, _⟩ := ptUnref_spec h
  exact fun x hx => unref_log hunref hx

/-- Freeing another dump is foreign to this one. -/
theorem ribDumpFree_foreign {c : WalkContext} (hne : c.addr ≠ addr)
    (h : s.ribDumpFree c = some (s', log)) : Foreign addr log s s' := by
  unfold AdjoutWalks.ribDumpFree at h
  cases hpt : c.pt with
  | none =>
    rw [hpt] at h
    cases h
    exact Foreign.dropContext hne
  | some k =>
    rw [hpt] at h
    obtain ⟨⟨t, l⟩, hunref, heq⟩ := Option.map_eq_some_iff.mp h
    cases heq
    have htable : Foreign addr l s { s with table := t } :=
      Foreign.table rfl (ptUnref_log hunref) (tableHas_ptUnref hunref)
    have hdrop := Foreign.dropContext (s := { s with table := t }) hne
    refine ⟨hdrop.ctx, hdrop.back, fun pt id hx => ?_, fun hx => ?_, ?_⟩
    · rcases List.mem_cons.mp hx with hx | hx
      · cases hx
      · exact htable.calls pt id hx
    · rcases List.mem_cons.mp hx with hx | hx
      · cases hx
        exact hne rfl
      · exact htable.done hx
    · exact htable.has.mono fun x hx => List.mem_cons_of_mem _ hx

theorem freeAll_foreign {cs : List WalkContext} (hne : ∀ c ∈ cs, c.addr ≠ addr)
    (h : AdjoutWalks.freeAll cs s = some (s', log)) : Foreign addr log s s' := by
  induction cs generalizing s log with
  | nil =>
    cases h
    exact Foreign.table rfl (by simp) (TableHas.refl _)
  | cons c cs ih =>
    obtain ⟨⟨s₁, l₁⟩, hfree, h⟩ := Option.bind_eq_some_iff.mp h
    obtain ⟨⟨s₂, l₂⟩, hrest, h⟩ := Option.map_eq_some_iff.mp h
    cases h
    exact (ribDumpFree_foreign (hne c List.mem_cons_self) hfree).trans
      (ih (fun c hc => hne c (List.mem_cons_of_mem _ hc)) hrest)

/-- The event does not end the context, and it creates no other one at the same address. -/
def Apart (addr : Ptr) (arg : ℕ) : WalkEvent → Prop
  | .dumpNew _ a _ _ _ _ => a ≠ addr
  | .terminate arg' => arg' ≠ arg
  | _ => True

instance (addr : Ptr) (arg : ℕ) (e : WalkEvent) : Decidable (Apart addr arg e) := by
  cases e <;> unfold Apart <;> infer_instance

theorem dumpNew_foreign (hi : WalkInv s) {a : Ptr} (ha : a ≠ addr) {peer : PeerId}
    {aid : Option Aid} {count arg : ℕ}
    (h : s.adjoutPrefixDumpNew upcall a peer aid count arg = some (s', log)) :
    Foreign addr log s s' := by
  obtain ⟨hfresh, c, hc, h⟩ := dumpNew_cases h
  have haddr : c.addr = a := by rw [hc]
  have hins : Foreign addr [] s { s with dumps := c :: s.dumps } := by
    refine ⟨fun x hx _ => List.mem_cons_of_mem _ hx, fun hmem => ?_, by simp, by simp,
      TableHas.refl _⟩
    rcases List.mem_cons.mp hmem with hmem | hmem
    · exact absurd (hmem.trans haddr).symm ha
    · exact hmem
  rcases h with ⟨-, hr⟩ | ⟨-, rfl, rfl⟩
  · have hi' := WalkInv.insert hi (by rw [haddr]; exact hfresh) (by rw [hc] : c.pt = none)
    exact hins.trans (dumpR_foreign hi' ha hr)
  · exact hins

/-- Every event but a round of the context itself. -/
theorem walkEvent_foreign {e : WalkEvent} {arg : ℕ} (hi : WalkInv s)
    (hctx : ∀ c ∈ s.dumps, c.addr = addr → c.arg = arg) (he : Apart addr arg e)
    (hown : ∀ upcall, e ≠ .dumpR upcall addr) (h : walkEvent s e = some (s', log)) :
    Foreign addr log s s' := by
  cases e with
  | ptGet pt =>
    cases h
    unfold AdjoutWalks.ptGet
    split_ifs with hany
    -- the entry is there already
    · exact Foreign.table rfl (by simp) (TableHas.refl _)
    -- a new entry has no routes yet
    · refine Foreign.table rfl (by simp) fun n hn q id hb => Or.inl ⟨n, ?_, rfl, hb⟩
      rw [← List.takeWhile_append_dropWhile (p := fun n => ptPrefixCmp n.pt pt = .lt)
        (l := s.table)] at hn
      rcases List.mem_append.mp hn with hn | hn
      · exact List.mem_append_left _ hn
      · exact List.mem_append_right _ (List.mem_cons_of_mem _ hn)
  | ref pt =>
    cases h
    exact Foreign.table rfl (by simp) (tableHas_map (fun _ => rfl) fun _ _ _ _ _ h => Or.inl h)
  | unref pt =>
    unfold walkEvent AdjoutWalks.unref at h
    obtain ⟨m, -, h⟩ := Option.bind_eq_some_iff.mp h
    split_ifs at h
    obtain ⟨⟨t', l⟩, hunref, h⟩ := Option.map_eq_some_iff.mp h
    cases h
    exact Foreign.table rfl (ptUnref_log hunref) (tableHas_ptUnref hunref)
  | update pt q attrs id =>
    cases h
    exact Foreign.table rfl (by simp)
      (tableHas_map (fun _ => rfl) fun _ _ _ _ _ h => Or.inl h.update)
  | withdraw pt q id =>
    cases h
    refine Foreign.table rfl (by simp) (tableHas_map (fun _ => rfl) fun n _ hpt q' id' hb => ?_)
    exact hb.withdraw.imp_right fun ⟨hq, hid⟩ => by simp [hpt, hq, hid]
  | collect pt =>
    cases h
    exact Foreign.table rfl (by simp)
      (tableHas_map (fun _ => rfl) fun n hn _ _ _ h => Or.inl (h.collect (hi.wf n hn)))
  | dumpNew upcall a peer aid count arg' => exact dumpNew_foreign hi he h
  | dumpR upcall a =>
    refine dumpR_foreign hi (fun ha => ?_) h
    subst ha
    exact hown upcall rfl
  | terminate arg' =>
    -- only its own argument terminates the walk
    refine freeAll_foreign (fun c hc haddr => ?_) h
    obtain ⟨hc, harg⟩ := List.mem_filter.mp hc
    exact he ((of_decide_eq_true harg).symm.trans (hctx c hc haddr))

/-! ## The walk -/

/-- The destination is of the family of the walk. -/
def OfAid (aid : Option Aid) (pt : Nlri.PtEntry) : Prop := aid = none ∨ aid = some pt.aid

/-- The entry has to be visited by a walk of the peer for the family: it was there when the walk
    was created, and it was not lost before the callback was called for it. -/
def Due (s₀ : AdjoutWalks) (addr : Ptr) (q : PeerId) (aid : Option Aid) (log : List WalkObs)
    (x : Nlri.PtEntry × ℕ) : Prop :=
  Has s₀ x.1 q x.2 ∧ OfAid aid x.1 ∧
    ∀ pre post, log = pre ++ .lost x.1 q x.2 :: post → x ∈ callsOf addr pre

/-- The walk is still going on. Nothing was visited twice, and nothing of another family. -/
def WalkGoesOn (addr : Ptr) (aid : Option Aid) (s : AdjoutWalks) (log : List WalkObs) : Prop :=
  addr ∈ s.dumps.map (·.addr) ∧ .done addr ∉ log ∧ (callsOf addr log).Nodup ∧
    ∀ x ∈ callsOf addr log, OfAid aid x.1

/-- The walk is over: `ctx_done` was called once, with no call of the callback behind it, and
    before it the callback was called once for every entry that had to be visited, and for
    nothing of another family. -/
def WalkIsOver (s₀ : AdjoutWalks) (addr : Ptr) (q : PeerId) (aid : Option Aid) (s : AdjoutWalks)
    (log : List WalkObs) : Prop :=
  addr ∉ s.dumps.map (·.addr) ∧ ∃ pre post, log = pre ++ .done addr :: post ∧
    .done addr ∉ pre ∧ .done addr ∉ post ∧ (∀ pt id, .call addr pt id ∉ post) ∧
    (callsOf addr pre).Nodup ∧ (∀ x ∈ callsOf addr pre, OfAid aid x.1) ∧
    ∀ x, Due s₀ addr q aid pre x → x ∈ callsOf addr pre

section Walk

variable {s₀ : AdjoutWalks} {aid : Option Aid} {arg : ℕ} {x : Nlri.PtEntry × ℕ}

theorem Due.mono (h : Due s₀ addr q aid (log ++ log') x) : Due s₀ addr q aid log x := by
  refine ⟨h.1, h.2.1, fun pre post hlog => h.2.2 pre (post ++ log') ?_⟩
  rw [hlog, List.append_assoc, List.cons_append]

/-- What has to be visited and is lost was visited. -/
theorem Due.called (h : Due s₀ addr q aid log x) (hlost : .lost x.1 q x.2 ∈ log) :
    x ∈ callsOf addr log := by
  obtain ⟨pre, post, rfl⟩ := List.append_of_mem hlost
  rw [callsOf_append]
  exact List.mem_append_left _ (h.2.2 pre post rfl)

/-- Where a walk is: what it visited is before the entry at which it is paused, and what it has
    to visit otherwise is still there and not before that entry. -/
structure Progress (s₀ : AdjoutWalks) (q : PeerId) (s : AdjoutWalks) (ctx : WalkContext)
    (log : List WalkObs) : Prop where
  mem : ctx ∈ s.dumps
  bid : ∀ q' ∈ ctx.bid, q' = q
  done : .done ctx.addr ∉ log
  nodup : (callsOf ctx.addr log).Nodup
  visited : ∀ x ∈ callsOf ctx.addr log, x.1.Ok ∧ OfAid ctx.aid x.1
  behind : ∀ x ∈ callsOf ctx.addr log, ∃ k ∈ ctx.pt, k.Ok ∧ ptPrefixCmp x.1 k = .lt
  ahead : ∀ x, Due s₀ ctx.addr q ctx.aid log x → x ∈ callsOf ctx.addr log ∨
    ctx.bid = some q ∧ Has s x.1 q x.2 ∧ ∀ k ∈ ctx.pt, ptPrefixCmp x.1 k ≠ .lt

theorem Progress.foreign (h : Progress s₀ q s ctx log) (hf : Foreign ctx.addr log' s s') :
    Progress s₀ q s' ctx (log ++ log') := by
  have hcalls : callsOf ctx.addr (log ++ log') = callsOf ctx.addr log := by
    rw [callsOf_append, hf.callsOf, List.append_nil]
  refine ⟨hf.ctx ctx h.mem rfl, h.bid, fun hd => ?_, ?_, ?_, ?_, fun x hx => ?_⟩
  · exact (List.mem_append.mp hd).elim h.done hf.done
  · rw [hcalls]
    exact h.nodup
  · rw [hcalls]
    exact h.visited
  · rw [hcalls]
    exact h.behind
  · rcases h.ahead x hx.mono with hc | ⟨hbid, hhas, hge⟩
    · exact Or.inl (hcalls ▸ hc)
    · rcases has_of_tableHas hf.has hhas with hhas | hlost
      · exact Or.inr ⟨hbid, hhas, hge⟩
      · exact Or.inl (hx.called (List.mem_append_right _ hlost))

/-- A round of the walk: it pauses, or it is over. -/
theorem Progress.round (hi : WalkInv s) (h : Progress s₀ q s ctx log)
    (hflow : ∀ f, ctx.aid = some f → isFlow f = true → ∀ pt id, pt.aid = f → ¬Has s₀ pt q id)
    (hr : s.adjoutPrefixDumpR upcall ctx.addr = some (s', log')) :
    (∃ k, Progress s₀ q s' { ctx with pt := some k } (log ++ log')) ∨
      WalkIsOver s₀ ctx.addr q ctx.aid s' (log ++ log') := by
  have hhas := dumpR_tableHas hi hr
  obtain ⟨c, hc, haddr, hcase⟩ := dumpR_cases hr
  obtain rfl : c = ctx := List.inj_on_of_nodup_map hi.addrs hc h.mem haddr
  have hgone : ∀ s₁ : AdjoutWalks, c.addr ∉ (s₁.dropContext c.addr).dumps.map (·.addr) := by
    intro s₁ hmem
    obtain ⟨c', hc', heq⟩ := List.mem_map.mp hmem
    simpa [heq] using (List.mem_filter.mp hc').2
  rcases hcase with ⟨hnone, rfl, rfl⟩ | ⟨q', pre, rest, lost, rest', l, paused, hbid, hstart,
    hloop, hend⟩
  · refine Or.inr ⟨hgone s, log, [], rfl, h.done, by simp, by simp, h.nodup,
      fun x hx => (h.visited x hx).2, fun x hx => ?_⟩
    refine (h.ahead x hx).resolve_right fun ⟨hbid, _⟩ => ?_
    rw [hnone] at hbid
    cases hbid
  obtain rfl := h.bid q' hbid
  obtain ⟨hnodup, hround, hpaused, hall⟩ := round_calls hi hc hstart hloop
  -- the done call comes with the end only
  have hdone : .done c.addr ∉ log ++ (lost ++ l) := by
    intro hd
    rcases List.mem_append.mp hd with hd | hd
    · exact h.done hd
    rcases List.mem_append.mp hd with hd | hd
    · obtain ⟨_, _, _, heq⟩ := roundStart_log hstart hd
      cases heq
    · rcases dumpLoop_log hloop hd with ⟨_, _, heq⟩ | ⟨_, _, _, heq⟩
      · cases heq
      · cases heq
  -- nothing that this round visits was visited before
  have hnodup' : (callsOf c.addr (log ++ (lost ++ l))).Nodup := by
    rw [callsOf_append]
    refine List.nodup_append'.mpr ⟨h.nodup, hnodup, fun x hx hx' => ?_⟩
    obtain ⟨k, hk, -, hlt⟩ := h.behind x hx
    exact (hround x hx').2.2.1 k hk hlt
  have hvisited : ∀ x ∈ callsOf c.addr (log ++ (lost ++ l)), x.1.Ok ∧ OfAid c.aid x.1 := by
    intro x hx
    rw [callsOf_append] at hx
    rcases List.mem_append.mp hx with hx | hx
    · exact h.visited x hx
    · exact ⟨(hround x hx).1, (hround x hx).2.1⟩
  have hahead : ∀ x, Due s₀ c.addr q' c.aid (log ++ (lost ++ l)) x →
      x ∈ callsOf c.addr (log ++ (lost ++ l)) ∨ Has s x.1 q' x.2 ∧
        ∃ k ∈ paused, ptPrefixCmp x.1 k ≠ .lt := by
    intro x hx
    -- what was due is called by now, or still ahead
    rcases h.ahead x hx.mono with hcalled | ⟨-, hh, hge⟩
    · rw [callsOf_append]
      exact Or.inl (List.mem_append_left _ hcalled)
    -- a flowspec walk has nothing to visit
    · have hnf : ∀ f ∈ c.aid, isFlow f = false := by
        intro f hf
        rw [Option.mem_def] at hf
        by_contra hne
        refine hflow f hf (by simpa using hne) x.1 x.2 ?_ hx.1
        rcases hx.2.1 with hn | hs
        · rw [hn] at hf
          cases hf
        · exact Option.some.inj (hs.symm.trans hf)
      rcases hall x.1 x.2 hh hx.2.1 hnf hge with hcalled | hlost | hp
      · rw [callsOf_append]
        exact Or.inl (List.mem_append_right _ hcalled)
      · exact Or.inl (hx.called (List.mem_append_right _ (List.mem_append_left _ hlost)))
      · exact Or.inr ⟨hh, hp⟩
  obtain ⟨k, rfl, rfl, rfl⟩ | ⟨rfl, rfl, rfl⟩ := hend
  -- the round pauses at `k`
  · refine Or.inl ⟨k, ?_, h.bid, hdone, hnodup', hvisited, fun x hx => ?_, fun x hx => ?_⟩
    · exact List.mem_map.mpr ⟨c, hc, if_pos rfl⟩
    -- what was visited is before the pause
    · refine ⟨k, rfl, (hpaused k rfl).1, ?_⟩
      rw [callsOf_append] at hx
      rcases List.mem_append.mp hx with hx | hx
      · obtain ⟨k₀, hk₀, hok₀, hlt⟩ := h.behind x hx
        exact lt_of_lt_of_not_lt (h.visited x hx).1 hok₀ (hpaused k rfl).1 hlt
          ((hpaused k rfl).2 k₀ hk₀)
      · exact (hround x hx).2.2.2 k rfl
    · rcases hahead x hx with hcalled | ⟨hh, k', hk', hge⟩
      · exact Or.inl hcalled
      · cases hk'
        rcases has_of_tableHas hhas hh with hh | hlost
        · refine Or.inr ⟨hbid, hh, fun k₁ hk₁ => ?_⟩
          cases hk₁
          exact hge
        · exact Or.inl (hx.called (List.mem_append_right _ hlost))
  -- the round was the last: nothing is ahead any more
  · refine Or.inr ⟨hgone _, log ++ (lost ++ l), [], by simp, hdone, by simp, by simp, hnodup',
      fun x hx => (hvisited x hx).2, fun x hx => ?_⟩
    refine (hahead x hx).resolve_right fun ⟨_, k, hk, _⟩ => ?_
    cases hk

/-- What a run keeps. -/
structure OnceInv (s₀ : AdjoutWalks) (addr : Ptr) (q : PeerId) (aid : Option Aid) (arg : ℕ)
    (x : AdjoutWalks × List WalkObs) : Prop where
  inv : WalkInv x.1
  walk : (∃ ctx, ctx.addr = addr ∧ ctx.aid = aid ∧ ctx.arg = arg ∧ Progress s₀ q x.1 ctx x.2) ∨
    WalkIsOver s₀ addr q aid x.1 x.2

/-- One event. -/
theorem OnceInv.step {x x' : AdjoutWalks × List WalkObs} {e : WalkEvent}
    (hflow : ∀ f, aid = some f → isFlow f = true → ∀ pt id, pt.aid = f → ¬Has s₀ pt q id)
    (h : OnceInv s₀ addr q aid arg x) (hok : EventOk e) (he : Apart addr arg e)
    (hs : walkStep x e = some x') : OnceInv s₀ addr q aid arg x' := by
  obtain ⟨s, log⟩ := x
  obtain ⟨⟨s', log'⟩, hev, heq⟩ := Option.map_eq_some_iff.mp hs
  cases heq
  refine ⟨h.inv.step hok hev, ?_⟩
  rcases h.walk with ⟨ctx, rfl, rfl, rfl, hp⟩ | ⟨hgone, pre, post, rfl, hpre, hpost, hcalls, hw⟩
  · have hctx : ∀ c ∈ s.dumps, c.addr = ctx.addr → c.arg = ctx.arg := fun c hc haddr => by
      rw [List.inj_on_of_nodup_map h.inv.addrs hc hp.mem haddr]
    by_cases hown : ∀ upcall, e ≠ .dumpR upcall ctx.addr
    · exact Or.inl ⟨ctx, rfl, rfl, rfl,
        hp.foreign (walkEvent_foreign h.inv hctx he hown hev)⟩
    · obtain ⟨upcall, he⟩ := not_forall.mp hown
      obtain rfl := not_not.mp he
      rcases hp.round h.inv hflow hev with ⟨k, hp⟩ | hover
      · exact Or.inl ⟨{ ctx with pt := some k }, rfl, rfl, rfl, hp⟩
      · exact Or.inr hover
  · -- there is no context at the address any more
    have hctx : ∀ c ∈ s.dumps, c.addr = addr → c.arg = arg := fun c hc haddr =>
      absurd (List.mem_map.mpr ⟨c, hc, haddr⟩) hgone
    have hown : ∀ upcall, e ≠ .dumpR upcall addr := by
      rintro upcall rfl
      obtain ⟨c, hc, haddr, -⟩ := dumpR_cases hev
      exact hgone (List.mem_map.mpr ⟨c, hc, haddr⟩)
    have hf := walkEvent_foreign h.inv hctx he hown hev
    refine Or.inr ⟨fun hmem => hgone (hf.back hmem), pre, post ++ log', by simp, hpre,
      fun hd => ?_, fun pt id hc => ?_, hw⟩
    · exact (List.mem_append.mp hd).elim hpost hf.done
    · exact (List.mem_append.mp hc).elim (hcalls pt id) (hf.calls pt id)

/-- A context that `adjout_prefix_dump_new` creates. -/
theorem OnceInv.create {peer : PeerId} {count : ℕ} (hi : WalkInv s)
    (hflow : ∀ f, aid = some f → isFlow f = true → ∀ pt id, pt.aid = f → ¬Has s pt peer id)
    (h : s.adjoutPrefixDumpNew upcall addr peer aid count arg = some (s', log)) :
    OnceInv s addr peer aid arg (s', log) := by
  refine ⟨hi.adjoutPrefixDumpNew h, ?_⟩
  obtain ⟨hfresh, ctx, hctx, h⟩ := dumpNew_cases h
  have haddr : ctx.addr = addr := by rw [hctx]
  have haid : ctx.aid = aid := by rw [hctx]
  have hpt : ctx.pt = none := by rw [hctx]
  have hins := hi.insert (by rwa [haddr]) hpt
  have hp : Progress s peer { s with dumps := ctx :: s.dumps } ctx [] := by
    refine ⟨List.mem_cons_self, fun q' hq' => ?_, by simp, List.nodup_nil, by simp [callsOf],
      by simp [callsOf], fun x hx => Or.inr ⟨?_, hx.1, by simp [hpt]⟩⟩
    · simp only [hctx] at hq'
      split_ifs at hq'
      · exact (Option.some.inj hq').symm
      · cases hq'
    · -- a peer without a bit has no entries
      obtain ⟨n, hn, -, p, hp, -, hq⟩ := hx.1
      simp only [hctx]
      exact if_pos (hi.bids n hn p hp peer hq)
  rcases h with ⟨-, hr⟩ | ⟨-, rfl, rfl⟩
  · rw [← haddr] at hr
    rw [← haid] at hflow
    rcases hp.round hins (fun f hf hflow' pt id hpt => hflow f hf hflow' pt id hpt) hr with
      ⟨k, hp⟩ | hover
    · exact Or.inl ⟨{ ctx with pt := some k }, haddr, haid, by rw [hctx], hp⟩
    · rw [haddr, haid] at hover
      exact Or.inr hover
  · exact Or.inl ⟨ctx, haddr, haid, by rw [hctx], hp⟩

/-- The first round of a walk of a flowspec family begins behind the table. -/
theorem dumpR_flow {f : Aid} (hi : WalkInv s) (hc : ctx ∈ s.dumps) (hpt : ctx.pt = none)
    (haid : ctx.aid = some f) (hf : isFlow f = true) :
    s.adjoutPrefixDumpR upcall ctx.addr = some (s.dropContext ctx.addr, [.done ctx.addr]) := by
  have hfill : ptFillFirst f = none := by
    cases f with
    | flowspec4 => rfl
    | flowspec6 => rfl
    | _ => cases hf
  have hall : ∀ n : PtNode, isBefore none n = true := fun _ => rfl
  have hstart : s.roundStart ctx = some (s.table, [], []) := by
    unfold AdjoutWalks.roundStart
    rw [hpt]
    simp [ptFirst, haid, hfill, hall]
  have hfind := find_context hi.addrs hc
  unfold AdjoutWalks.adjoutPrefixDumpR
  rw [hfind]
  cases hbid : ctx.bid with
  | none => simp [hbid]
  | some q => simp [hbid, hstart, dumpLoop]

/-- A walk of a flowspec family is over without a call of the callback. -/
theorem adjout_walk_flowspec {f : Aid} {peer : PeerId} {count : ℕ} (hi : WalkInv s)
    (hf : isFlow f = true)
    (h : s.adjoutPrefixDumpNew upcall addr peer (some f) count arg = some (s', log)) :
    ∃ es s₁, Run walkStep (fun _ e => EventOk e ∧ Apart addr arg e) (s', log) es
      (s₁, [.done addr]) := by
  obtain ⟨hfresh, ctx, hctx, h⟩ := dumpNew_cases h
  have haddr : ctx.addr = addr := by rw [hctx]
  have hpt : ctx.pt = none := by rw [hctx]
  have hins := hi.insert (by rwa [haddr]) hpt
  have hround := @dumpR_flow upcall _ _ _ hins List.mem_cons_self hpt (by rw [hctx]) hf
  rw [haddr] at hround
  rcases h with ⟨-, hr⟩ | ⟨-, rfl, rfl⟩
  · cases hround.symm.trans hr
    exact ⟨[], _, Run.nil _⟩
  · have hstep : walkStep ({ s with dumps := ctx :: s.dumps }, []) (.dumpR upcall addr) =
        some ({ s with dumps := ctx :: s.dumps }.dropContext addr, [.done addr]) := by
      simp only [walkStep, walkEvent, hround, Option.map_some, List.nil_append]
    exact ⟨[.dumpR upcall addr], _, Run.cons ⟨trivial, trivial⟩ hstep (Run.nil _)⟩

/-- Whatever else happens in the meantime, a walk that `adjout_prefix_dump_new` creates calls
    its callback exactly once for every entry of the peer that is of the family and stays, if
    and only if the family is none of flowspec or the peer has no entries of it. -/
theorem adjout_walk_exactly_once {es₀ : List WalkEvent} {s₀ s₁ : AdjoutWalks}
    {log₀ log₁ : List WalkObs} {upcall : Upcall} {addr : Ptr} {peer : PeerId} {aid : Option Aid}
    {count arg : ℕ}
    (h₀ : Run walkStep (fun _ e => EventOk e) ({}, []) es₀ (s₀, log₀))
    (hnew : s₀.adjoutPrefixDumpNew upcall addr peer aid count arg = some (s₁, log₁)) :
    (∀ es s log, Run walkStep (fun _ e => EventOk e ∧ Apart addr arg e) (s₁, log₁) es (s, log) →
        WalkGoesOn addr aid s log ∨ WalkIsOver s₀ addr peer aid s log) ↔
      ∀ f, aid = some f → isFlow f = true → ∀ pt id, pt.aid = f → ¬Has s₀ pt peer id := by
  have hi : WalkInv s₀ := by
    refine Run.invariant (P := fun x => WalkInv x.1) (fun x e x' hx hok hs => ?_) h₀
      WalkInv.init
    obtain ⟨⟨s', l⟩, hev, rfl⟩ := Option.map_eq_some_iff.mp hs
    exact hx.step hok hev
  constructor
  -- a flowspec walk ends at once, so nothing may be due
  · rintro hall f rfl hf pt id hpt hhas
    obtain ⟨es, s, hrun⟩ := adjout_walk_flowspec hi hf hnew
    rcases hall es s _ hrun with ⟨-, hd, -⟩ | ⟨-, pre, post, hlog, -, -, -, -, -, hdue⟩
    · exact hd (List.mem_singleton_self _)
    · -- the log says that the walk is over, and nothing else
      obtain rfl : pre = [] := by
        cases pre with
        | nil => rfl
        | cons y pre =>
          rw [List.cons_append] at hlog
          simp at hlog
      have := hdue (pt, id) ⟨hhas, Or.inr (by rw [hpt]), by simp⟩
      cases this
  -- in all other walks the invariant of the steps says which of the two it is
  · intro hflow es s log hrun
    have h : OnceInv s₀ addr peer aid arg (s, log) :=
      Run.invariant (fun x e x' hx hok hs => OnceInv.step hflow hx hok.1 hok.2 hs) hrun
        (OnceInv.create hi hflow hnew)
    rcases h.walk with ⟨ctx, rfl, rfl, -, hp⟩ | hover
    · exact Or.inl ⟨List.mem_map_of_mem hp.mem, hp.done, hp.nodup,
        fun x hx => (hp.visited x hx).2⟩
    · exact Or.inr hover

end Walk

/-- The entries that are added to the table are some given ones. -/
def SampleOk (pts : List Nlri.PtEntry) : WalkEvent → Prop
  | .ptGet pt => pt ∈ pts
  | _ => True

instance (pts : List Nlri.PtEntry) (e : WalkEvent) : Decidable (SampleOk pts e) := by
  cases e <;> unfold SampleOk <;> infer_instance

theorem SampleOk.eventOk {pts : List Nlri.PtEntry} (h : ∀ pt ∈ pts, Nlri.Built pt) {e : WalkEvent}
    (he : SampleOk pts e) : EventOk e := by
  cases e with
  | ptGet pt => exact h pt he
  | _ => trivial

/-- 10.0.0.0/8 as destination of a flowspec rule. -/
def sampleFlow : Nlri.PtEntry := .flow false [1, 8, 10]

def sampleNet (n : UInt8) : Nlri.PtEntry := ptFill (.inet ⟨[n, 0, 0, 0], rfl⟩) 8

def sampleAttrs : AdjoutAttr := { aspath := { aspath := [] } }

/-- The Adj-RIB-Out of a peer with a path that one reference holds. -/
def sampleAdd (pt : Nlri.PtEntry) (peer : PeerId) : List WalkEvent :=
  [.ptGet pt, .ref pt, .update pt peer sampleAttrs 0]

/-- The refresh of the flowspec routes of a peer that has one sends nothing. -/
theorem adjout_walk_exactly_once_fails_flowspec :
    ¬∀ (es₀ : List WalkEvent) (s₀ s₁ : AdjoutWalks) (log₀ log₁ : List WalkObs) (upcall : Upcall)
      (addr : Ptr) (peer : PeerId) (aid : Option Aid) (count arg : ℕ),
      Run walkStep (fun _ e => EventOk e) ({}, []) es₀ (s₀, log₀) →
      s₀.adjoutPrefixDumpNew upcall addr peer aid count arg = some (s₁, log₁) →
      ∀ es s log, Run walkStep (fun _ e => EventOk e ∧ Apart addr arg e) (s₁, log₁) es (s, log) →
        WalkGoesOn addr aid s log ∨ WalkIsOver s₀ addr peer aid s log := by
  intro hall
  obtain ⟨⟨s₀, log₀⟩, h₀, hn, hsync⟩ := exists_run walkStep (fun _ e => SampleOk [sampleFlow] e)
    ({}, []) (sampleAdd sampleFlow 1)
    (fun x => (∃ n ∈ x.1.table, n.pt = sampleFlow ∧
        ∃ p ∈ n.adjout, p.pathIdTx = 0 ∧ 1 ∈ p.peermap) ∧
      ((x.1.adjoutPrefixDumpNew (fun _ _ => {}) 7 1 (some .flowspec4) 0 0).any fun y =>
        y.2 = [.done 7]) = true) (by decide +kernel)
  have hbuilt : ∀ pt ∈ [sampleFlow], Nlri.Built pt := by
    intro pt hpt
    rw [List.mem_singleton.mp hpt]
    exact Nlri.Built.flow (by decide)
  obtain ⟨⟨s₁, log₁⟩, hnew, hlog⟩ := (Option.any_eq_true _ _).mp hsync
  obtain rfl : log₁ = [.done 7] := of_decide_eq_true hlog
  rcases hall _ _ _ _ _ _ 7 1 (some .flowspec4) 0 0 (h₀.mono fun _ _ he => he.eventOk hbuilt) hnew
      [] _ _ (Run.nil _) with
    ⟨-, hd, -⟩ | ⟨-, pre, post, hlog, -, -, -, -, -, hdue⟩
  · exact hd (List.mem_singleton_self _)
  · obtain rfl : pre = [] := by
      cases pre with
      | nil => rfl
      | cons y pre =>
        rw [List.cons_append] at hlog
        simp at hlog
    have := hdue (sampleFlow, 0) ⟨hn, Or.inr rfl, by simp⟩
    cases this

/-- A walk over two entries that pauses at the second one. The first one goes away, and a third
    one comes behind it. -/
theorem adjout_walk_exactly_once_sample :
    ∃ s₀ s₁ log₀ log₁, s₀.adjoutPrefixDumpNew (fun _ _ => {}) 7 1 (some .inet) 1 0 =
        some (s₁, log₁) ∧
      Run walkStep (fun _ e => EventOk e) ({}, [])
        (sampleAdd (sampleNet 10) 1 ++ sampleAdd (sampleNet 20) 1) (s₀, log₀) ∧
      (∃ s, Run walkStep (fun _ e => EventOk e ∧ Apart 7 0 e) (s₁, log₁)
        ([.dumpR (fun _ _ => {}) 7, .withdraw (sampleNet 10) 1 0] ++ sampleAdd (sampleNet 30) 1 ++
          [.dumpR (fun _ _ => {}) 7, .dumpR (fun _ _ => {}) 7])
        (s, [.call 7 (sampleNet 10) 0, .lost (sampleNet 10) 1 0, .call 7 (sampleNet 20) 0,
          .call 7 (sampleNet 30) 0, .done 7])) ∧
      ∀ es s log, Run walkStep (fun _ e => EventOk e ∧ Apart 7 0 e) (s₁, log₁) es (s, log) →
        WalkGoesOn 7 (some .inet) s log ∨ WalkIsOver s₀ 7 1 (some .inet) s log := by
  have hbuilt : ∀ pt ∈ [sampleNet 10, sampleNet 20, sampleNet 30], Nlri.Built pt := by
    intro pt hpt
    simp only [List.mem_cons, List.not_mem_nil, or_false] at hpt
    rcases hpt with rfl | rfl | rfl <;> exact Nlri.Built.plain4 _ _
  obtain ⟨⟨s₀, log₀⟩, h₀, hs₀⟩ := exists_run walkStep
    (fun _ e => SampleOk [sampleNet 10, sampleNet 20, sampleNet 30] e) ({}, [])
    (sampleAdd (sampleNet 10) 1 ++ sampleAdd (sampleNet 20) 1)
    (fun x => ((x.1.adjoutPrefixDumpNew (fun _ _ => {}) 7 1 (some .inet) 1 0).any fun y =>
      (execRun walkStep
        (fun _ e => SampleOk [sampleNet 10, sampleNet 20, sampleNet 30] e ∧ Apart 7 0 e) y
        ([.dumpR (fun _ _ => {}) 7, .withdraw (sampleNet 10) 1 0] ++ sampleAdd (sampleNet 30) 1 ++
          [.dumpR (fun _ _ => {}) 7, .dumpR (fun _ _ => {}) 7])).any fun z =>
        z.2 = [.call 7 (sampleNet 10) 0, .lost (sampleNet 10) 1 0, .call 7 (sampleNet 20) 0,
          .call 7 (sampleNet 30) 0, .done 7]) = true) (by decide +kernel)
  obtain ⟨⟨s₁, log₁⟩, hnew, hrun⟩ := (Option.any_eq_true _ _).mp hs₀
  obtain ⟨⟨s, log⟩, hexec, hlog⟩ := (Option.any_eq_true _ _).mp hrun
  have h₀' := h₀.mono fun _ _ he => he.eventOk hbuilt
  have hlog : log = _ := of_decide_eq_true hlog
  refine ⟨s₀, s₁, log₀, log₁, hnew, h₀', ⟨s, ?_⟩, ?_⟩
  · rw [← hlog]
    exact (run_of_execRun hexec).mono fun _ _ he => ⟨he.1.eventOk hbuilt, he.2⟩
  · refine (adjout_walk_exactly_once h₀' hnew).mpr fun f hf hflow => ?_
    cases hf
    cases hflow

end Bgpd.Rde.AdjoutWalk
