import Bgpd.Lib.Run
import Bgpd.Rde.Intern

/-!
# Interned Attributes by Value

The comparison of two paths looks at the size of the array of attributes, and the hash of
communities is only computed for communities that were changed. So a value is interned once as long
as all copies of it have the same size and the same hash.

## Main results

- `CacheInv.step`: what every event keeps
- `interning_canonical`: when objects stand for values
- `PathRep.Grown`, `CommRep.Fresh`: histories that lead to the same size and the same hash
-/

namespace Bgpd.Rde.Cache

open Bgpd.Lib Bgpd.Lib.InternKey

variable {hashes : Hashes} {s s' : Caches}

/-- The paths that are there have the size of the array of attributes that this one has. -/
def PathOk (s : Caches) (v : PathRep) : Prop :=
  ∀ o ∈ s.paths, o.val.path = v.path → o.val.othersLen = v.othersLen

/-- The communities that are there have the hash that is looked up. -/
def CommOk (hashes : Hashes) (s : Caches) (c : CommRep) : Prop :=
  ∀ o ∈ s.comms, o.val.comm = c.comm → o.val.hash = (communitiesCalcHash hashes.sip c).hash

/-- The condition of an event. -/
def RepOk (hashes : Hashes) (s : Caches) : CacheEvent → Prop
  | .pathGetcache v _ => PathOk s v
  | .communitiesGet c _ => CommOk hashes s c
  | .adjoutAttrGet v c _ _ _ _ => PathOk s v ∧ CommOk hashes s c
  | _ => True

instance (v : PathRep) : Decidable (PathOk s v) :=
  inferInstanceAs (Decidable (∀ o ∈ s.paths, o.val.path = v.path → o.val.othersLen = v.othersLen))

instance (c : CommRep) : Decidable (CommOk hashes s c) :=
  inferInstanceAs (Decidable (∀ o ∈ s.comms, o.val.comm = c.comm →
    o.val.hash = (communitiesCalcHash hashes.sip c).hash))

instance (e : CacheEvent) : Decidable (RepOk hashes s e) :=
  match e with
  | .pathGetcache v _ => inferInstanceAs (Decidable (PathOk s v))
  | .communitiesGet c _ => inferInstanceAs (Decidable (CommOk hashes s c))
  | .adjoutAttrGet v c _ _ _ _ => inferInstanceAs (Decidable (PathOk s v ∧ CommOk hashes s c))
  | .pathRef _ | .pathUnref _ | .communitiesRef _ | .communitiesUnref _ | .adjoutAttrRef _
  | .adjoutAttrUnref _ => isTrue trivial

/-- What an `adjout_attr` points to. -/
def Denotes (s : Caches) (k : AdjoutKey) (x : Msg.MsgAttrs) : Prop :=
  (∃ o ∈ s.paths, o.addr = k.asp ∧ o.val.path = x.aspath) ∧
    (∃ o ∈ s.comms, o.addr = k.comm ∧ o.val.comm = x.communities) ∧ k.nexthop = x.nexthop

/-! ## What is looked up -/

theorem dirty_communitiesCalcHash (sip : List ℕ → ℕ) (c : CommRep) :
    (communitiesCalcHash sip c).dirty = false := by
  unfold communitiesCalcHash
  split_ifs with h
  · rfl
  · simpa using h

theorem comm_communitiesCalcHash (sip : List ℕ → ℕ) (c : CommRep) :
    (communitiesCalcHash sip c).comm = c.comm := by
  unfold communitiesCalcHash
  split_ifs <;> rfl

/-- The hash of a path does not depend on the size of the array. -/
theorem pathKey_same_iff {v w : PathRep} (hpath : v.path = w.path) :
    (pathKey hashes.sip).same v w = true ↔ v.othersLen = w.othersLen := by
  have hhash : pathCalcHash hashes.sip v = pathCalcHash hashes.sip w := by
    unfold pathCalcHash
    rw [hpath]
  rw [InternKey.same, Bool.and_eq_true, decide_eq_true_eq]
  refine ⟨fun h => (pathEqual_iff.mp h.2).2, fun hlen => ⟨hhash, pathEqual_iff.mpr ⟨hpath, hlen⟩⟩⟩

theorem commKey_same_iff {v w : CommRep} (hcomm : v.comm = w.comm) (hv : v.dirty = false)
    (hw : w.dirty = false) : commKey.same v w = true ↔ v.hash = w.hash := by
  have heq : communitiesEqual v w = true := decide_eq_true ⟨hcomm, hv.trans hw.symm⟩
  rw [InternKey.same, Bool.and_eq_true, decide_eq_true_eq]
  exact ⟨fun h => h.1, fun h => ⟨h, heq⟩⟩

theorem adjoutKey_same_self (k : AdjoutKey) : (adjoutKey hashes).same k k = true := by
  rw [InternKey.same, Bool.and_eq_true, decide_eq_true_eq]
  exact ⟨rfl, adjoutAttrEq_iff.mpr rfl⟩

/-! ## The invariant -/

/-- What is true of the caches after every event that meets its condition. -/
structure CacheInv (hashes : Hashes) (s : Caches) : Prop where
  paths_nodup : (s.paths.map (·.addr)).Nodup
  comms_nodup : (s.comms.map (·.addr)).Nodup
  adjout_nodup : (s.adjout.map (·.addr)).Nodup
  paths_canonical : (pathKey hashes.sip).Canonical s.paths
  comms_canonical : commKey.Canonical s.comms
  adjout_canonical : (adjoutKey hashes).Canonical s.adjout
  clean : ∀ o ∈ s.comms, o.val.dirty = false
  paths_held : Held s.paths (s.adjout.map (·.val.asp))
  comms_held : Held s.comms (s.adjout.map (·.val.comm))

theorem CacheInv.init : CacheInv hashes {} where
  paths_nodup := List.nodup_nil
  comms_nodup := List.nodup_nil
  adjout_nodup := List.nodup_nil
  paths_canonical _ h := nomatch h
  comms_canonical _ h := nomatch h
  adjout_canonical _ h := nomatch h
  clean _ h := nomatch h
  paths_held := ⟨List.forall_mem_nil _, List.forall_mem_nil _⟩
  comms_held := ⟨List.forall_mem_nil _, List.forall_mem_nil _⟩

theorem heldPath_eq (s : Caches) (a : Ptr) :
    s.heldPath a = (s.adjout.map (·.val.asp)).count a := by
  rw [Caches.heldPath, List.count, List.countP_map]
  exact List.countP_congr fun e _ => by simp

theorem heldComm_eq (s : Caches) (a : Ptr) :
    s.heldComm a = (s.adjout.map (·.val.comm)).count a := by
  rw [Caches.heldComm, List.count, List.countP_map]
  exact List.countP_congr fun e _ => by simp

/-- A path that is interned leaves one object for its content if and only if its array has the
    size that the object has. -/
theorem canonical_paths_iff (hinv : CacheInv hashes s) {v : PathRep} {addr r : ℕ}
    {paths : List (Interned PathRep)}
    (h : (pathKey hashes.sip).get addr v s.paths = some (r, paths)) :
    (pathKey hashes.sip).Canonical paths ↔ PathOk s v := by
  rw [canonical_get_iff hinv.paths_canonical h]
  refine forall₂_congr fun o ho => imp_congr_right fun hpath => ?_
  constructor
  · rintro ⟨o', ho', haddr, hsame⟩
    rw [List.inj_on_of_nodup_map hinv.paths_nodup ho' ho haddr] at hsame
    exact (pathKey_same_iff hpath).mp hsame
  · intro hlen
    exact ⟨o, ho, rfl, (pathKey_same_iff hpath).mpr hlen⟩

theorem canonical_comms_iff (hinv : CacheInv hashes s) {c : CommRep} {addr r : ℕ}
    {comms : List (Interned CommRep)}
    (h : commKey.get addr (communitiesCalcHash hashes.sip c) s.comms = some (r, comms)) :
    commKey.Canonical comms ↔ CommOk hashes s c := by
  rw [canonical_get_iff hinv.comms_canonical h]
  refine forall₂_congr fun o ho => ?_
  have hcalc := comm_communitiesCalcHash hashes.sip c
  have hdirty := dirty_communitiesCalcHash hashes.sip c
  show o.val.comm = (communitiesCalcHash hashes.sip c).comm → _ ↔ _
  rw [hcalc]
  refine imp_congr_right fun hcomm => ?_
  have hiff := commKey_same_iff (hcomm.trans hcalc.symm) (hinv.clean o ho) hdirty
  constructor
  · rintro ⟨o', ho', haddr, hsame⟩
    rw [List.inj_on_of_nodup_map hinv.comms_nodup ho' ho haddr] at hsame
    exact hiff.mp hsame
  · intro hhash
    exact ⟨o, ho, rfl, hiff.mpr hhash⟩

theorem clean_get (hinv : CacheInv hashes s) {c : CommRep} {addr r : ℕ}
    {comms : List (Interned CommRep)}
    (h : commKey.get addr (communitiesCalcHash hashes.sip c) s.comms = some (r, comms)) :
    ∀ o ∈ comms, o.val.dirty = false := by
  rcases get_cases h with ⟨e, -, -, -, rfl⟩ | ⟨-, -, -, rfl⟩
  · exact hinv.clean
  · intro o ho
    rcases List.mem_cons.mp ho with rfl | ho
    · exact dirty_communitiesCalcHash _ _
    · exact hinv.clean o ho

/-! ## The events -/

theorem step_pathGetcache (hinv : CacheInv hashes s) {v : PathRep} {addr r : ℕ}
    {paths : List (Interned PathRep)} (hok : PathOk s v)
    (h : (pathKey hashes.sip).get addr v s.paths = some (r, paths)) :
    CacheInv hashes { s with paths := paths } :=
  { hinv with
    paths_nodup := get_addrs h hinv.paths_nodup
    paths_canonical := (canonical_paths_iff hinv h).mpr hok
    paths_held := hinv.paths_held.get h }

theorem step_communitiesGet (hinv : CacheInv hashes s) {c : CommRep} {addr r : ℕ}
    {comms : List (Interned CommRep)} (hok : CommOk hashes s c)
    (h : commKey.get addr (communitiesCalcHash hashes.sip c) s.comms = some (r, comms)) :
    CacheInv hashes { s with comms := comms } :=
  { hinv with
    comms_nodup := get_addrs h hinv.comms_nodup
    comms_canonical := (canonical_comms_iff hinv h).mpr hok
    clean := clean_get hinv h
    comms_held := hinv.comms_held.get h }

theorem clean_sub {comms : List (Interned CommRep)} (hclean : ∀ o ∈ s.comms, o.val.dirty = false)
    (hsub : Sub comms s.comms) : ∀ o ∈ comms, o.val.dirty = false := by
  intro o ho
  obtain ⟨o', ho', -, hval⟩ := hsub o ho
  rw [← hval]
  exact hclean o' ho'

theorem lt_of_canUnref {V : Type} {t : List (Interned V)} {a held : ℕ}
    (hnd : (t.map (·.addr)).Nodup)
    (h : canUnref t a held = true) : ∀ e ∈ t, e.addr = a → held < e.refcnt := by
  obtain ⟨e, he, hcan⟩ := List.any_eq_true.mp h
  obtain ⟨haddr, hlt⟩ := of_decide_eq_true hcan
  intro e' he' haddr'
  rw [List.inj_on_of_nodup_map hnd he' he (haddr'.trans haddr.symm)]
  exact hlt

/-- The references of an `adjout_attr` that is not the last one change no pointer. -/
theorem map_val_ref {V β : Type} (f : V → β) (a : ℕ) (t : List (Interned V)) :
    (InternKey.ref a t).map (fun e => f e.val) = t.map fun e => f e.val := by
  rw [InternKey.ref, List.map_map]
  apply List.map_congr_left
  intro e _
  rw [Function.comp_apply]
  split_ifs <;> rfl

theorem map_val_unref {V β : Type} (f : V → β) {a : ℕ} {t : List (Interned V)}
    (h : ∀ e ∈ t, e.addr = a → 1 < e.refcnt) :
    (InternKey.unref a t).map (fun e => f e.val) = t.map fun e => f e.val := by
  have hall : InternKey.unref a t = t.map fun e =>
      if e.addr = a then { e with refcnt := e.refcnt - 1 } else e := by
    rw [InternKey.unref, List.filter_eq_self]
    intro e' he'
    obtain ⟨e, he, rfl⟩ := List.mem_map.mp he'
    apply decide_eq_true
    split_ifs with hea
    · rintro ⟨-, hzero⟩
      exact absurd (Nat.sub_eq_zero_iff_le.mp hzero) (Nat.not_le.mpr (h e he hea))
    · exact fun hx => hea hx.1
  rw [hall, List.map_map]
  apply List.map_congr_left
  intro e _
  rw [Function.comp_apply]
  split_ifs <;> rfl

/-- `adjout_attr_get` interns the path and the communities, and one object for both. -/
theorem adjoutAttrGet_cases {pa ca aa : Ptr} {v : PathRep} {c : CommRep}
    {nexthop : Option BgpdAddr} (h : s.adjoutAttrGet hashes pa ca aa v c nexthop = some s') :
    ∃ asp paths comm comms, (pathKey hashes.sip).get pa v s.paths = some (asp, paths) ∧
      commKey.get ca (communitiesCalcHash hashes.sip c) s.comms = some (comm, comms) ∧
      (s' = { s with paths := paths, comms := comms } ∨
        ∃ r adjout, (adjoutKey hashes).get aa ⟨asp, comm, nexthop⟩ s.adjout = some (r, adjout) ∧
          adjout = { addr := aa, val := ⟨asp, comm, nexthop⟩ } :: s.adjout ∧
          s' = ⟨InternKey.ref asp paths, InternKey.ref comm comms, adjout⟩) := by
  unfold Caches.adjoutAttrGet at h
  obtain ⟨⟨asp, paths⟩, hpaths, h⟩ := Option.bind_eq_some_iff.mp h
  obtain ⟨⟨comm, comms⟩, hcomms, h⟩ := Option.bind_eq_some_iff.mp h
  refine ⟨asp, paths, comm, comms, hpaths, hcomms, ?_⟩
  dsimp only at h
  cases hfind : (adjoutKey hashes).find ⟨asp, comm, nexthop⟩ s.adjout with
  | some e =>
    rw [hfind] at h
    exact Or.inl (Option.some.inj h).symm
  | none =>
    rw [hfind] at h
    obtain ⟨⟨r, adjout⟩, hadj, h⟩ := Option.bind_eq_some_iff.mp h
    refine Or.inr ⟨r, adjout, hadj, ?_, (Option.some.inj h).symm⟩
    unfold InternKey.get at hadj
    rw [hfind] at hadj
    dsimp only at hadj
    split_ifs at hadj
    exact (Prod.mk.inj (Option.some.inj hadj)).2.symm

/-- Getting an Adj-RIB-Out attribute keeps the caches canonical and counted. -/
theorem step_adjoutAttrGet (hinv : CacheInv hashes s) {pa ca aa : Ptr} {v : PathRep} {c : CommRep}
    {nexthop : Option BgpdAddr} (hok : PathOk s v ∧ CommOk hashes s c)
    (h : s.adjoutAttrGet hashes pa ca aa v c nexthop = some s') : CacheInv hashes s' := by
  obtain ⟨asp, paths, comm, comms, hpaths, hcomms, h⟩ := adjoutAttrGet_cases h
  have hinv₁ := step_pathGetcache hinv hok.1 hpaths
  have hinv₂ : CacheInv hashes { s with paths := paths, comms := comms } :=
    step_communitiesGet hinv₁ hok.2 hcomms
  rcases h with rfl | ⟨r, adjout, hadj, rfl, rfl⟩
  · exact hinv₂
  · have hcan := (canonical_get_iff hinv.adjout_canonical hadj).mpr fun e he hcont =>
      ⟨e, he, rfl, by
        rw [show e.val = ⟨asp, comm, nexthop⟩ from hcont]
        exact adjoutKey_same_self _⟩
    obtain ⟨⟨o, ho, rfl, -⟩, -⟩ := get_spec hpaths
    obtain ⟨⟨o', ho', rfl, -⟩, -⟩ := get_spec hcomms
    exact
      { paths_nodup := by rw [map_addr_ref]; exact hinv₂.paths_nodup
        comms_nodup := by rw [map_addr_ref]; exact hinv₂.comms_nodup
        adjout_nodup := get_addrs hadj hinv.adjout_nodup
        paths_canonical := hinv₂.paths_canonical.ref
        comms_canonical := hinv₂.comms_canonical.ref
        adjout_canonical := hcan
        clean := clean_sub hinv₂.clean fun _ h => by
          obtain ⟨e, he, haddr, hval, -⟩ := of_mem_ref h
          exact ⟨e, he, haddr, hval⟩
        paths_held := hinv₂.paths_held.ref_cons (List.mem_map.mpr ⟨o, ho, rfl⟩)
        comms_held := hinv₂.comms_held.ref_cons (List.mem_map.mpr ⟨o', ho', rfl⟩) }

/-- Dropping an Adj-RIB-Out attribute keeps the caches canonical and counted. -/
theorem step_adjoutAttrUnref (hinv : CacheInv hashes s) {a : Ptr}
    (h : s.adjoutAttrUnref a = some s') : CacheInv hashes s' := by
  unfold Caches.adjoutAttrUnref at h
  obtain ⟨e, hfind, h⟩ := Option.bind_eq_some_iff.mp h
  have he := List.mem_of_find?_eq_some hfind
  have haddr := List.find?_some hfind
  rw [decide_eq_true_eq] at haddr
  subst haddr
  split_ifs at h with hlast
  · cases h
    -- the object goes, and with it its two references
    have hperm := perm_cons_filter hinv.adjout_nodup he
    have hpaths := hinv.paths_held.perm (hperm.map fun e => e.val.asp)
    have hcomms := hinv.comms_held.perm (hperm.map fun e => e.val.comm)
    exact
      { paths_nodup := unref_addrs hinv.paths_nodup
        comms_nodup := unref_addrs hinv.comms_nodup
        adjout_nodup := hinv.adjout_nodup.sublist (List.filter_sublist.map _)
        paths_canonical := hinv.paths_canonical.unref
        comms_canonical := hinv.comms_canonical.unref
        adjout_canonical := hinv.adjout_canonical.sub fun o ho =>
          ⟨o, (List.mem_filter.mp ho).1, rfl, rfl⟩
        clean := clean_sub hinv.clean fun _ h => by
          obtain ⟨o, ho, haddr, hval, -⟩ := of_mem_unref h
          exact ⟨o, ho, haddr, hval⟩
        paths_held := hpaths.unref_cons
        comms_held := hcomms.unref_cons }
  -- a reference less, but the object stays
  · cases h
    have hmore : ∀ o ∈ s.adjout, o.addr = e.addr → 1 < o.refcnt := fun o ho haddr => by
      rw [List.inj_on_of_nodup_map hinv.adjout_nodup ho he haddr]
      exact Nat.not_le.mp hlast
    exact
      { hinv with
        adjout_nodup := unref_addrs hinv.adjout_nodup
        adjout_canonical := hinv.adjout_canonical.unref
        paths_held := by
          dsimp only
          rw [map_val_unref AdjoutKey.asp hmore]
          exact hinv.paths_held
        comms_held := by
          dsimp only
          rw [map_val_unref AdjoutKey.comm hmore]
          exact hinv.comms_held }

/-- Every event that meets its condition keeps the invariant. -/
theorem CacheInv.step {e : CacheEvent} (hinv : CacheInv hashes s) (hok : RepOk hashes s e)
    (h : cacheStep hashes s e = some s') : CacheInv hashes s' := by
  cases e with
  | pathGetcache v addr =>
    -- a path that is looked up gets a reference, or is entered with one
    obtain ⟨⟨r, paths⟩, hget, rfl⟩ := Option.map_eq_some_iff.mp h
    exact step_pathGetcache hinv hok hget
  | pathRef a =>
    cases h
    exact
      { hinv with
        paths_nodup := by rw [map_addr_ref]; exact hinv.paths_nodup
        paths_canonical := hinv.paths_canonical.ref
        paths_held := hinv.paths_held.ref }
  | pathUnref a =>
    rw [cacheStep] at h
    split_ifs at h with hcan
    cases h
    exact
      { hinv with
        paths_nodup := unref_addrs hinv.paths_nodup
        paths_canonical := hinv.paths_canonical.unref
        paths_held := hinv.paths_held.unref <| heldPath_eq s a ▸
          lt_of_canUnref hinv.paths_nodup hcan }
  | communitiesGet c addr =>
    obtain ⟨⟨r, comms⟩, hget, rfl⟩ := Option.map_eq_some_iff.mp h
    exact step_communitiesGet hinv hok hget
  | communitiesRef a =>
    cases h
    exact
      { hinv with
        comms_nodup := by rw [map_addr_ref]; exact hinv.comms_nodup
        comms_canonical := hinv.comms_canonical.ref
        clean := clean_sub hinv.clean fun _ h => by
          obtain ⟨o, ho, haddr, hval, -⟩ := of_mem_ref h
          exact ⟨o, ho, haddr, hval⟩
        comms_held := hinv.comms_held.ref }
  | communitiesUnref a =>
    rw [cacheStep] at h
    split_ifs at h with hcan
    cases h
    exact
      { hinv with
        comms_nodup := unref_addrs hinv.comms_nodup
        comms_canonical := hinv.comms_canonical.unref
        clean := clean_sub hinv.clean fun _ h => by
          obtain ⟨o, ho, haddr, hval, -⟩ := of_mem_unref h
          exact ⟨o, ho, haddr, hval⟩
        comms_held := hinv.comms_held.unref <| heldComm_eq s a ▸
          lt_of_canUnref hinv.comms_nodup hcan }
  | adjoutAttrGet v c nexthop pa ca aa => exact step_adjoutAttrGet hinv hok h
  | adjoutAttrRef a =>
    cases h
    exact
      { hinv with
        adjout_nodup := by rw [map_addr_ref]; exact hinv.adjout_nodup
        adjout_canonical := hinv.adjout_canonical.ref
        paths_held := by
          rw [map_val_ref AdjoutKey.asp]
          exact hinv.paths_held
        comms_held := by
          rw [map_val_ref AdjoutKey.comm]
          exact hinv.comms_held }
  | adjoutAttrUnref a => exact step_adjoutAttrUnref hinv h

/-- No event may be taken without its condition. -/
theorem CacheInv.canonical_iff {e : CacheEvent} (hinv : CacheInv hashes s)
    (h : cacheStep hashes s e = some s') :
    (pathKey hashes.sip).Canonical s'.paths ∧ commKey.Canonical s'.comms ↔ RepOk hashes s e := by
  refine ⟨fun hcan => ?_, fun hok => ?_⟩
  · cases e with
    | pathGetcache v addr =>
      obtain ⟨⟨r, paths⟩, hget, rfl⟩ := Option.map_eq_some_iff.mp h
      exact (canonical_paths_iff hinv hget).mp hcan.1
    | communitiesGet c addr =>
      obtain ⟨⟨r, comms⟩, hget, rfl⟩ := Option.map_eq_some_iff.mp h
      exact (canonical_comms_iff hinv hget).mp hcan.2
    | adjoutAttrGet v c nexthop pa ca aa =>
      obtain ⟨asp, paths, comm, comms, hpaths, hcomms, h⟩ := adjoutAttrGet_cases h
      have hboth : (pathKey hashes.sip).Canonical paths ∧ commKey.Canonical comms := by
        rcases h with rfl | ⟨r, adjout, -, -, rfl⟩
        · exact hcan
        · exact ⟨canonical_ref_iff.mp hcan.1, canonical_ref_iff.mp hcan.2⟩
      exact ⟨(canonical_paths_iff hinv hpaths).mp hboth.1,
        (canonical_comms_iff hinv hcomms).mp hboth.2⟩
    | _ => trivial
  · have hinv' := hinv.step hok h
    exact ⟨hinv'.paths_canonical, hinv'.comms_canonical⟩

/-! ## Objects and values -/

/-- Every value has one object, which every lookup finds, and pointers to `adjout_attr` objects
    are compared for what the objects denote. -/
structure ByValue (hashes : Hashes) (s : Caches) : Prop where
  paths : (pathKey hashes.sip).Canonical s.paths
  comms : commKey.Canonical s.comms
  path_found : ∀ o ∈ s.paths, ∀ v addr r paths, PathOk s v → v.path = o.val.path →
    (pathKey hashes.sip).get addr v s.paths = some (r, paths) → r = o.addr ∧ paths = s.paths
  comm_found : ∀ o ∈ s.comms, ∀ c addr r comms, CommOk hashes s c → c.comm = o.val.comm →
    commKey.get addr (communitiesCalcHash hashes.sip c) s.comms = some (r, comms) →
      r = o.addr ∧ comms = s.comms
  denotes : ∀ e ∈ s.adjout, ∃ x, Denotes s e.val x
  adjout_eq_iff : ∀ e ∈ s.adjout, ∀ e' ∈ s.adjout, ∀ x x', Denotes s e.val x →
    Denotes s e'.val x' → (adjoutAttrEq e.val e'.val = true ↔ x = x') ∧
      (e.addr = e'.addr ↔ x = x')

/-- The key of an `adjout_attr` is determined by what it denotes, and conversely. -/
theorem CacheInv.key_eq_iff (hinv : CacheInv hashes s) {k k' : AdjoutKey} {x x' : Msg.MsgAttrs}
    (hx : Denotes s k x) (hx' : Denotes s k' x') : k = k' ↔ x = x' := by
  obtain ⟨asp, comm, nexthop⟩ := k
  obtain ⟨asp', comm', nexthop'⟩ := k'
  obtain ⟨aspath, communities, exit⟩ := x
  obtain ⟨aspath', communities', exit'⟩ := x'
  obtain ⟨⟨o, ho, rfl, rfl⟩, ⟨c, hc, rfl, rfl⟩, rfl⟩ := hx
  obtain ⟨⟨o', ho', rfl, rfl⟩, ⟨c', hc', rfl, rfl⟩, rfl⟩ := hx'
  have hpath := hinv.paths_canonical.addr_eq_iff hinv.paths_nodup ho ho'
  have hcomm := hinv.comms_canonical.addr_eq_iff hinv.comms_nodup hc hc'
  rw [AdjoutKey.mk.injEq, Msg.MsgAttrs.mk.injEq, hpath, hcomm]
  exact Iff.rfl

/-- In a sound cache a lookup finds an object exactly if one of that value is held. -/
theorem CacheInv.byValue (hinv : CacheInv hashes s) : ByValue hashes s where
  paths := hinv.paths_canonical
  comms := hinv.comms_canonical
  path_found o ho v addr r paths hok hpath hget := by
    rcases get_cases hget with ⟨e, he, hsame, rfl, rfl⟩ | ⟨hnone, -, -, -⟩
    · exact ⟨hinv.paths_canonical e he o ho ((same_sound hsame).trans hpath), rfl⟩
    · have hsame : (pathKey hashes.sip).same o.val v = true :=
        (pathKey_same_iff hpath.symm).mpr (hok o ho hpath.symm)
      rw [hnone o ho] at hsame
      cases hsame
  comm_found o ho c addr r comms hok hcomm hget := by
    have hcalc := comm_communitiesCalcHash hashes.sip c
    rcases get_cases hget with ⟨e, he, hsame, rfl, rfl⟩ | ⟨hnone, -, -, -⟩
    · exact ⟨hinv.comms_canonical e he o ho ((same_sound hsame).trans (hcalc.trans hcomm)), rfl⟩
    · have hsame := (commKey_same_iff (hcomm.symm.trans hcalc.symm) (hinv.clean o ho)
        (dirty_communitiesCalcHash _ _)).mpr (hok o ho hcomm.symm)
      rw [hnone o ho] at hsame
      cases hsame
  denotes e he := by
    obtain ⟨o, ho, hasp⟩ := List.mem_map.mp
      (hinv.paths_held.live _ (List.mem_map.mpr ⟨e, he, rfl⟩))
    obtain ⟨c, hc, hcomm⟩ := List.mem_map.mp
      (hinv.comms_held.live _ (List.mem_map.mpr ⟨e, he, rfl⟩))
    exact ⟨⟨o.val.path, c.val.comm, e.val.nexthop⟩, ⟨o, ho, hasp, rfl⟩, ⟨c, hc, hcomm, rfl⟩, rfl⟩
  adjout_eq_iff e he e' he' x x' hx hx' := by
    have hkey := hinv.key_eq_iff hx hx'
    exact ⟨adjoutAttrEq_iff.trans hkey,
      (hinv.adjout_canonical.addr_eq_iff hinv.adjout_nodup he he').trans hkey⟩

/-- As long as equal values come with the same size of the array and the same hash, every value
    has one object; and the first event for which this is not so leaves a value with two. -/
theorem interning_canonical {es : List CacheEvent}
    (h : Run (cacheStep hashes) (RepOk hashes) {} es s) :
    ByValue hashes s ∧ ∀ e s', cacheStep hashes s e = some s' →
      ((pathKey hashes.sip).Canonical s'.paths ∧ commKey.Canonical s'.comms ↔
        RepOk hashes s e) := by
  have hinv : CacheInv hashes s :=
    h.invariant (P := CacheInv hashes) (fun _ _ _ hinv hok hstep => hinv.step hok hstep)
      CacheInv.init
  exact ⟨hinv.byValue, fun _ _ => hinv.canonical_iff⟩

/-- Hash functions of the samples. -/
def sampleHashes : Hashes where
  sip l := l.foldl (fun h x => (h * 31 + x) % 2 ^ 64) 7
  qhash k := k.asp * 31 + k.comm

/-- A path with optional attributes of these types, of which some are deleted again. -/
def samplePath (types freed : List ℕ) : PathRep :=
  freed.foldl (fun p type => p.free type)
    (types.foldl (fun p type => (p.optadd ⟨0xc0, type, [0, 0, 0, type]⟩).getD p) .prep)

/-- Two prefixes with one path are sent to a peer, and the objects are freed again. -/
theorem interning_canonical_sample :
    ∃ s, Run (cacheStep sampleHashes) (RepOk sampleHashes) {}
      [.adjoutAttrGet (samplePath [6, 7] []) {} none 1 2 3, .adjoutAttrRef 3,
        .pathGetcache (samplePath [6, 7, 18] [18]) 4, .pathRef 1,
        .adjoutAttrGet (samplePath [6, 7] []) {} none 4 5 6, .adjoutAttrUnref 3] s ∧
      ByValue sampleHashes s ∧ s.paths.map (·.addr) = [1] := by
  have hrun : Run (cacheStep sampleHashes) (RepOk sampleHashes) {}
      [.adjoutAttrGet (samplePath [6, 7] []) {} none 1 2 3, .adjoutAttrRef 3,
        .pathGetcache (samplePath [6, 7, 18] [18]) 4, .pathRef 1,
        .adjoutAttrGet (samplePath [6, 7] []) {} none 4 5 6, .adjoutAttrUnref 3] _ :=
    .cons (by decide) rfl (.cons (by decide) rfl (.cons (by decide) rfl (.cons (by decide) rfl
      (.cons (by decide) rfl (.cons (by decide) rfl (.nil _))))))
  exact ⟨_, hrun, (interning_canonical hrun).1, by decide⟩

/-! ## Histories -/

/-- The size of an array that `n` attributes were added to. -/
def grownLen : ℕ → ℕ
  | 0 => 0
  | n + 1 => if n < grownLen n then grownLen n else min (binOfAttrs (grownLen n + 1)) 255

/-- No attribute was deleted since `path_prep`. -/
inductive PathRep.Grown : PathRep → Prop
  | prep : Grown .prep
  | setPath {p : PathRep} (path : RdeAspath) (h : Grown p) : Grown (p.setPath path)
  | optadd {p p' : PathRep} {a : Attr} (h : Grown p) (hadd : p.optadd a = some p') : Grown p'

theorem length_attrOptadd_of_none {new : Attr} {others : List Attr}
    (h : attrOptget others new.type = none) :
    (attrOptadd new others).length = others.length + 1 := by
  induction others with
  | nil => rfl
  | cons a rest ih =>
    rw [attrOptget] at h
    rw [attrOptadd]
    split_ifs at h ⊢ with heq hlt
    · rfl
    · exact congrArg Nat.succ (ih h)

theorem PathRep.Grown.othersLen {p : PathRep} (h : p.Grown) :
    p.othersLen = grownLen p.path.others.length := by
  induction h with
  | prep => rfl
  | setPath path h ih => exact ih
  | @optadd p p' a h hadd ih =>
    unfold PathRep.optadd at hadd
    split_ifs at hadd with hdup hfit hmax
    all_goals
      cases hadd
      have hnone : attrOptget p.path.others a.type = none := by simpa using hdup
      have hlen := length_attrOptadd_of_none hnone
      dsimp only
      rw [hlen, grownLen, ← ih]
    · rw [if_pos hfit]
    · rw [if_neg hfit]

/-- The hash is the one of the communities. -/
def CommRep.Hashed (sip : List ℕ → ℕ) (c : CommRep) : Prop := c.hash = commHash sip c.comm

/-- The hash is up to date, or will be. -/
def CommRep.Fresh (sip : List ℕ → ℕ) (c : CommRep) : Prop := c.dirty = true ∨ c.Hashed sip

theorem CommRep.Fresh.hash {sip : List ℕ → ℕ} {c : CommRep} (h : c.Fresh sip) :
    (communitiesCalcHash sip c).hash = commHash sip c.comm := by
  unfold communitiesCalcHash
  split_ifs with hdirty
  · rfl
  · exact h.resolve_left hdirty

/-- Nothing was deleted from the path, and the communities were changed at all. -/
def HistoryOk (sip : List ℕ → ℕ) : CacheEvent → Prop
  | .pathGetcache v _ => v.Grown
  | .communitiesGet c _ => c.Fresh sip
  | .adjoutAttrGet v c _ _ _ _ => v.Grown ∧ c.Fresh sip
  | _ => True

/-- What is in the tables after events with such histories. -/
structure HistoryInv (hashes : Hashes) (s : Caches) : Prop where
  paths : ∀ o ∈ s.paths, o.val.Grown
  comms : ∀ o ∈ s.comms, o.val.Hashed hashes.sip

theorem HistoryInv.pathOk (h : HistoryInv hashes s) {v : PathRep} (hv : v.Grown) : PathOk s v := by
  intro o ho hpath
  rw [(h.paths o ho).othersLen, hv.othersLen, hpath]

theorem HistoryInv.commOk (h : HistoryInv hashes s) {c : CommRep} (hc : c.Fresh hashes.sip) :
    CommOk hashes s c := by
  intro o ho hcomm
  rw [h.comms o ho, hc.hash, hcomm]

theorem HistoryInv.repOk {e : CacheEvent} (h : HistoryInv hashes s)
    (hok : HistoryOk hashes.sip e) : RepOk hashes s e := by
  cases e with
  | pathGetcache v addr => exact h.pathOk hok
  | communitiesGet c addr => exact h.commOk hok
  | adjoutAttrGet v c nexthop pa ca aa => exact ⟨h.pathOk hok.1, h.commOk hok.2⟩
  | _ => trivial

/-- The objects after a lookup have a property that the objects and the value have. -/
theorem forall_get {V C : Type} {K : InternKey V C} {P : V → Prop} {a r : ℕ} {v : V}
    {t t' : List (Interned V)} (h : K.get a v t = some (r, t')) (hv : P v)
    (ht : ∀ e ∈ t, P e.val) : ∀ e ∈ t', P e.val := by
  rcases get_cases h with ⟨e, -, -, -, rfl⟩ | ⟨-, -, -, rfl⟩
  · exact ht
  · exact List.forall_mem_cons.mpr ⟨hv, ht⟩

theorem forall_ref {V : Type} {P : V → Prop} {a : ℕ} {t : List (Interned V)}
    (ht : ∀ e ∈ t, P e.val) : ∀ e ∈ InternKey.ref a t, P e.val := by
  intro e' he'
  obtain ⟨e, he, -, hval, -⟩ := of_mem_ref he'
  exact hval ▸ ht e he

theorem forall_unref {V : Type} {P : V → Prop} {a : ℕ} {t : List (Interned V)}
    (ht : ∀ e ∈ t, P e.val) : ∀ e ∈ InternKey.unref a t, P e.val := by
  intro e' he'
  obtain ⟨e, he, -, hval, -⟩ := of_mem_unref he'
  exact hval ▸ ht e he

/-- Every cache event keeps the invariant of the history. -/
theorem HistoryInv.step {e : CacheEvent} (hinv : HistoryInv hashes s)
    (hok : HistoryOk hashes.sip e) (h : cacheStep hashes s e = some s') : HistoryInv hashes s' := by
  -- the hash of what is looked up
  have hcalc : ∀ {c : CommRep}, c.Fresh hashes.sip →
      (communitiesCalcHash hashes.sip c).Hashed hashes.sip := fun hc => by
    rw [CommRep.Hashed, comm_communitiesCalcHash, hc.hash]
  cases e with
  | pathGetcache v addr =>
    obtain ⟨⟨r, paths⟩, hget, rfl⟩ := Option.map_eq_some_iff.mp h
    exact ⟨forall_get hget hok hinv.paths, hinv.comms⟩
  | pathRef a =>
    cases h
    exact ⟨forall_ref hinv.paths, hinv.comms⟩
  | pathUnref a =>
    rw [cacheStep] at h
    split_ifs at h
    cases h
    exact ⟨forall_unref hinv.paths, hinv.comms⟩
  | communitiesGet c addr =>
    obtain ⟨⟨r, comms⟩, hget, rfl⟩ := Option.map_eq_some_iff.mp h
    exact ⟨hinv.paths, forall_get (P := CommRep.Hashed hashes.sip) hget (hcalc hok) hinv.comms⟩
  | communitiesRef a =>
    cases h
    exact ⟨hinv.paths, forall_ref (P := CommRep.Hashed hashes.sip) hinv.comms⟩
  | communitiesUnref a =>
    rw [cacheStep] at h
    split_ifs at h
    cases h
    exact ⟨hinv.paths, forall_unref (P := CommRep.Hashed hashes.sip) hinv.comms⟩
  | adjoutAttrGet v c nexthop pa ca aa =>
    obtain ⟨asp, paths, comm, comms, hpaths, hcomms, h⟩ := adjoutAttrGet_cases h
    have hv := forall_get hpaths hok.1 hinv.paths
    have hc := forall_get (P := CommRep.Hashed hashes.sip) hcomms (hcalc hok.2) hinv.comms
    rcases h with rfl | ⟨r, adjout, -, -, rfl⟩
    · exact ⟨hv, hc⟩
    · exact ⟨forall_ref hv, forall_ref (P := CommRep.Hashed hashes.sip) hc⟩
  | adjoutAttrRef a =>
    cases h
    exact ⟨hinv.paths, hinv.comms⟩
  | adjoutAttrUnref a =>
    unfold cacheStep Caches.adjoutAttrUnref at h
    obtain ⟨e, -, h⟩ := Option.bind_eq_some_iff.mp h
    split_ifs at h
    · cases h
      exact ⟨forall_unref hinv.paths,
        forall_unref (P := CommRep.Hashed hashes.sip) hinv.comms⟩
    · cases h
      exact ⟨hinv.paths, hinv.comms⟩

/-- Values that are only added to are interned once. -/
theorem byValue_of_histories {es : List CacheEvent}
    (h : Run (cacheStep hashes) (fun _ e => HistoryOk hashes.sip e) {} es s) :
    ByValue hashes s := by
  have hinv : CacheInv hashes s ∧ HistoryInv hashes s := by
    refine h.invariant (P := fun s => CacheInv hashes s ∧ HistoryInv hashes s) ?_
      ⟨CacheInv.init, List.forall_mem_nil _, List.forall_mem_nil _⟩
    intro s e s' hinv hok hstep
    exact ⟨hinv.1.step (hinv.2.repOk hok) hstep, hinv.2.step hok hstep⟩
  exact hinv.1.byValue

/-! ## Attributes that were deleted -/

/-- Communities after an UPDATE with one of them, and `community_delete` by a filter. -/
def sampleComm : CommRep :=
  (CommRep.insert {} ⟨Community.typeBasic, 65000, 1, 0⟩).delete
    ⟨Community.typeBasic, 65000, 1, 0⟩ ⟨65001, 65000⟩

/-- Two UPDATEs of a peer with 4-byte AS numbers, with ATOMIC_AGGREGATE, AGGREGATOR, AS4_PATH and
    OTC, one of them also with AS4_AGGREGATOR; both lose their AS4 attributes. And communities that
    were never there or were deleted. -/
theorem interning_not_canonical :
    (samplePath [6, 7, 17, 18, 35] [17, 18]).path = (samplePath [6, 7, 17, 35] [17]).path ∧
    sampleComm.comm = ({} : CommRep).comm ∧
    ∃ s, Run (cacheStep sampleHashes) (fun _ _ => True) {}
      [.pathGetcache (samplePath [6, 7, 17, 18, 35] [17, 18]) 1,
        .pathGetcache (samplePath [6, 7, 17, 35] [17]) 2,
        .communitiesGet {} 3, .communitiesGet sampleComm 4] s ∧
      ¬(pathKey sampleHashes.sip).Canonical s.paths ∧ ¬commKey.Canonical s.comms := by
  refine ⟨by decide, by decide, _, .cons trivial rfl (.cons trivial rfl (.cons trivial rfl
    (.cons trivial rfl (.nil _)))), ?_, ?_⟩
  · intro hcan
    have := hcan _ List.mem_cons_self _ (List.mem_cons_of_mem _ List.mem_cons_self) (by decide)
    exact absurd this (by decide)
  · intro hcan
    have := hcan _ List.mem_cons_self _ (List.mem_cons_of_mem _ List.mem_cons_self) (by decide)
    exact absurd this (by decide)

end Bgpd.Rde.Cache
