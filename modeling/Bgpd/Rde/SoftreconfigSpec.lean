import Bgpd.Lib.Run
import Bgpd.Rde.RibSpec
import Bgpd.Rde.RpkiReloadSpec
import Bgpd.Rde.Softreconfig

/-!
# Paths and Walks

Every Loc-RIB agrees with the Adj-RIB-In, that is, it holds what its rules make of the paths
there. A walk of a reload fills the RIBs that are reloaded, and all RIBs agree about the paths
that it has left behind.

## Main results

- `InInv.write`: a change of paths that all RIBs take note of
- `InInv.rdeRpkiSoftreload`: a visit of the walk after a change of the RPKI tables
- `softreconfigIn_visits`: a visit of the walk after a change of the configuration
-/

namespace Bgpd.Rde.Softreconfig

open Bgpd.Lib

variable {ρ : Type} {env : FilterEnv ρ} {s s' : RdeIn ρ} {id : ℕ} {rib rib' : InRib ρ} {k : Key}
  {p : InPrefix}

/-! ## Agreement -/

/-- The RIB holds what its rules make of the path. -/
structure FilteredBy (env : FilterEnv ρ) (s : RdeIn ρ) (id : ℕ) (rib : InRib ρ) (k : Key)
    (p : InPrefix) : Prop where
  allowed : (env.filter rib.inRules k.peer k.pt p.state).1 = true →
    rib.table k = some ⟨p.pathIdTx, (env.filter rib.inRules k.peer k.pt p.state).2, false⟩
  denied : (env.filter rib.inRules k.peer k.pt p.state).1 = false →
    rib.table k = if s.filteredInLocrib = true ∧ id = ribLocStart then
      some ⟨p.pathIdTx, (env.filter rib.inRules k.peer k.pt p.state).2, true⟩ else none

/-- A route is filtered right exactly if the table holds what the filters give. -/
theorem filteredBy_iff : FilteredBy env s id rib k p ↔
    rib.table k = RdeIn.filterEntry env s.filteredInLocrib id rib.inRules k p := by
  unfold RdeIn.filterEntry
  dsimp only
  constructor
  · intro h
    cases hallow : (env.filter rib.inRules k.peer k.pt p.state).1 with
    | true =>
      rw [if_pos rfl]
      exact h.allowed hallow
    | false =>
      rw [if_neg (by simp)]
      exact h.denied hallow
  · intro h
    constructor
    · intro hallow
      rw [hallow, if_pos rfl] at h
      exact h
    · intro hdeny
      rw [hdeny, if_neg (by simp)] at h
      exact h

/-- The RIB agrees with the Adj-RIB-In about a path of which it was told. -/
def AgreeAt (env : FilterEnv ρ) (s : RdeIn ρ) (id : ℕ) (rib : InRib ρ) (k : Key) : Prop :=
  ∀ p, s.adjIn k = some p → p.overLimit = false →
    rib.table k = RdeIn.filterEntry env s.filteredInLocrib id rib.inRules k p

/-- All RIBs agree about the paths for a destination. -/
def Good (env : FilterEnv ρ) (s : RdeIn ρ) (pt : PtEntry) : Prop :=
  ∀ id rib k, s.ribs id = some rib → k.peer ≠ peerself → k.pt = pt → AgreeAt env s id rib k

/-- What holds whether or not a walk is under way. Only a RIB that is reloaded may disagree. -/
structure InCore (env : FilterEnv ρ) (s : RdeIn ρ) : Prop where
  sorted : s.keys.Pairwise fun a b => ptLe a b = true
  keys : ∀ k, s.adjIn k ≠ none → k.pt ∈ s.keys
  inet : ∀ k, k.peer ≠ peerself → s.adjIn k ≠ none → k.pt.aid.isFlowspec = false
  own : ∀ k p, s.adjIn k = some p → (p.announced = true ↔ k.peer = peerself)
  bound : ∀ id rib, s.ribs id = some rib → ribLocStart ≤ id ∧ id < s.ribSize
  first : (s.ribs ribLocStart).isSome = true
  reconf : s.reconf = true → s.soft = .idle ∧ s.softreconfig = 0 ∧
    ∀ id rib, s.ribs id = some rib → rib.state ≠ .none
  stray : ∀ id rib k, s.ribs id = some rib → k.peer ≠ peerself → s.adjIn k = none →
    rib.table k = none
  settled : ∀ id rib k, s.ribs id = some rib → k.peer ≠ peerself → rib.state ≠ .reload →
    AgreeAt env s id rib k

/-- The RIBs agree about the paths that the walk has left behind. -/
structure InInv (env : FilterEnv ρ) (s : RdeIn ρ) : Prop extends InCore env s where
  behind : Behind ptLe (Good env) s.keys s.soft s

/-- No walk of a reload is under way: the RIBs agree about all paths. -/
theorem InInv.agree (hi : InInv env s) (hidle : s.soft = .idle) (hrib : s.ribs id = some rib)
    (hk : k.peer ≠ peerself) : AgreeAt env s id rib k := by
  intro p hp hlimit
  have hbehind := hi.behind
  rw [hidle] at hbehind
  have hmem : k.pt ∈ s.keys := hi.keys k (by simp [hp])
  exact hbehind.of_idle k.pt hmem id rib k hrib hk rfl p hp hlimit

/-! ## Changes of paths -/

/-- The RIBs were told about the path at a key. -/
def Settled (env : FilterEnv ρ) (s : RdeIn ρ) (k : Key) : Prop :=
  ∀ id rib, s.ribs id = some rib → (s.adjIn k = none → rib.table k = none) ∧ AgreeAt env s id rib k

/-- Nothing changed at a key. -/
def Untouched (s s' : RdeIn ρ) (k : Key) : Prop :=
  s'.adjIn k = s.adjIn k ∧
    ∀ id rib rib', s.ribs id = some rib → s'.ribs id = some rib' → rib'.table k = rib.table k

/-- Rules and state of a RIB. -/
def InRib.head (rib : InRib ρ) : ρ × ReconfAction := (rib.inRules, rib.state)

/-- A change of paths that all RIBs take note of. -/
structure Change (env : FilterEnv ρ) (s s' : RdeIn ρ) : Prop where
  soft : s'.soft = s.soft
  softreconfig : s'.softreconfig = s.softreconfig
  filtered : s'.filteredInLocrib = s.filteredInLocrib
  reconf : s'.reconf = s.reconf
  ribSize : s'.ribSize = s.ribSize
  ribs : ∀ id, (s'.ribs id).map InRib.head = (s.ribs id).map InRib.head
  sorted : s'.keys.Pairwise fun a b => ptLe a b = true
  keys : ∀ k, s'.adjIn k ≠ none → k.pt ∈ s'.keys
  inet : ∀ k, k.peer ≠ peerself → s'.adjIn k ≠ none → k.pt.aid.isFlowspec = false
  own : ∀ k p, s'.adjIn k = some p → (p.announced = true ↔ k.peer = peerself)
  each : ∀ k, k.peer ≠ peerself → Untouched s s' k ∨ Settled env s' k

/-- A RIB after the change, and the one that it was. -/
theorem Change.before (hc : Change env s s') (h : s'.ribs id = some rib') :
    ∃ rib, s.ribs id = some rib ∧ rib'.inRules = rib.inRules ∧ rib'.state = rib.state := by
  have hhead := hc.ribs id
  rw [h, Option.map_some] at hhead
  obtain ⟨rib, hrib, heq⟩ := Option.map_eq_some_iff.mp hhead.symm
  have heq := Prod.mk.inj heq
  exact ⟨rib, hrib, heq.1.symm, heq.2.symm⟩

theorem Change.agreeAt (hc : Change env s s') (h' : s'.ribs id = some rib')
    (h : s.ribs id = some rib) (hrules : rib'.inRules = rib.inRules) (hk : k.peer ≠ peerself)
    (hagree : AgreeAt env s id rib k) : AgreeAt env s' id rib' k := by
  rcases hc.each k hk with ⟨hadj, htable⟩ | hsettled
  · intro p hp hlimit
    rw [htable id rib rib' h h', hc.filtered, hrules]
    exact hagree p (hadj ▸ hp) hlimit
  · exact (hsettled id rib' h').2

/-- A change that says what it does keeps the invariant. -/
theorem InInv.change (hi : InInv env s) (hc : Change env s s') : InInv env s' where
  sorted := hc.sorted
  keys := hc.keys
  inet := hc.inet
  own := hc.own
  bound id rib' h' := by
    obtain ⟨rib, h, -⟩ := hc.before h'
    rw [hc.ribSize]
    exact hi.bound id rib h
  first := by
    have hhead := congrArg Option.isSome (hc.ribs ribLocStart)
    rw [Option.isSome_map, Option.isSome_map] at hhead
    rw [hhead]
    exact hi.first
  reconf hr := by
    rw [hc.reconf] at hr
    obtain ⟨hsoft, hcount, hstate⟩ := hi.reconf hr
    refine ⟨hc.soft.trans hsoft, hc.softreconfig.trans hcount, fun id rib' h' => ?_⟩
    obtain ⟨rib, h, -, hst⟩ := hc.before h'
    rw [hst]
    exact hstate id rib h
  stray id rib' k h' hk hnone := by
    obtain ⟨rib, h, -⟩ := hc.before h'
    rcases hc.each k hk with ⟨hadj, htable⟩ | hsettled
    · rw [htable id rib rib' h h']
      exact hi.stray id rib k h hk (hadj ▸ hnone)
    · exact (hsettled id rib' h').1 hnone
  settled id rib' k h' hk hstate := by
    obtain ⟨rib, h, hrules, hst⟩ := hc.before h'
    exact hc.agreeAt h' h hrules hk (hi.settled id rib k h hk (hst ▸ hstate))
  behind pt _ := by
    rw [hc.soft]
    by_cases hmem : pt ∈ s.keys
    · rcases hi.behind pt hmem with hahead | hgood
      · exact Or.inl hahead
      · right
        intro id rib' k h' hk hpt
        obtain ⟨rib, h, hrules, -⟩ := hc.before h'
        exact hc.agreeAt h' h hrules hk (hgood id rib k h hk hpt)
    · -- there was no path for a new destination
      right
      intro id rib' k h' hk hpt
      obtain ⟨rib, h, hrules, -⟩ := hc.before h'
      apply hc.agreeAt h' h hrules hk
      intro p hp
      exact absurd (hi.keys k (by simp [hp])) (hpt ▸ hmem)

/-! ## Events that change paths -/

/-- What such an event writes. -/
def RdeIn.write (s : RdeIn ρ) (f : ℕ → InRib ρ → InRib ρ) (peers : PeerId → InPeer)
    (keys : List PtEntry) (adjIn : Key → Option InPrefix) : RdeIn ρ :=
  { s.forRibs f with peers := peers, keys := keys, adjIn := adjIn }

variable {f : ℕ → InRib ρ → InRib ρ} {peers : PeerId → InPeer} {keys : List PtEntry}
  {adjIn : Key → Option InPrefix}

theorem forRibs_same (s : RdeIn ρ) : s.forRibs (fun _ rib => rib) = s := by
  have hribs : (s.forRibs fun _ rib => rib).ribs = s.ribs := by
    funext id
    show (if id < ribLocStart then s.ribs id else (s.ribs id).map fun rib => rib) = s.ribs id
    rw [Option.map_id', ite_self]
  show { s with ribs := (s.forRibs fun _ rib => rib).ribs } = s
  rw [hribs]

theorem InCore.ribs_forRibs (hi : InCore env s) (id : ℕ) :
    (s.forRibs f).ribs id = (s.ribs id).map (f id) := by
  show (if id < ribLocStart then s.ribs id else (s.ribs id).map (f id)) = _
  split_ifs with hid
  · cases h : s.ribs id with
    | none => rfl
    | some rib => exact absurd (hi.bound id rib h).1 (by omega)
  · rfl

/-- A key is left alone, or every RIB is told what the Adj-RIB-In has for it now. -/
theorem InInv.write (hi : InInv env s) (hhead : ∀ id rib, (f id rib).head = rib.head)
    (hsorted : keys.Pairwise fun a b => ptLe a b = true) (hkeys : ∀ pt ∈ s.keys, pt ∈ keys)
    (hnew : ∀ k p, adjIn k = some p → s.adjIn k = some p ∨ (k.pt ∈ keys ∧
      (k.peer ≠ peerself → k.pt.aid.isFlowspec = false) ∧
      (p.announced = true ↔ k.peer = peerself)))
    (heach : ∀ k, k.peer ≠ peerself →
      (adjIn k = s.adjIn k ∧ ∀ id rib, s.ribs id = some rib → (f id rib).table k = rib.table k) ∨
      ∀ id rib, s.ribs id = some rib → (adjIn k = none → (f id rib).table k = none) ∧
        ∀ p, adjIn k = some p → p.overLimit = false → (f id rib).table k =
          RdeIn.filterEntry env s.filteredInLocrib id rib.inRules k p) :
    InInv env (s.write f peers keys adjIn) := by
  have hribs : ∀ id, (s.write f peers keys adjIn).ribs id = (s.ribs id).map (f id) :=
    fun id => hi.ribs_forRibs id
  refine hi.change
    { soft := rfl, softreconfig := rfl, filtered := rfl, reconf := rfl, ribSize := rfl,
      ribs := fun id => ?_, sorted := hsorted, keys := fun k hk => ?_, inet := fun k hpeer hk => ?_,
      own := fun k p hk => ?_, each := fun k hk => ?_ }
  · rw [hribs, Option.map_map]
    congr 1
    funext rib
    exact hhead id rib
  · obtain ⟨p, hp⟩ := Option.ne_none_iff_exists'.mp hk
    rcases hnew k p hp with hold | ⟨hmem, -⟩
    · exact hkeys k.pt (hi.keys k (by simp [hold]))
    · exact hmem
  · obtain ⟨p, hp⟩ := Option.ne_none_iff_exists'.mp hk
    rcases hnew k p hp with hold | ⟨-, hinet, -⟩
    · exact hi.inet k hpeer (by simp [hold])
    · exact hinet hpeer
  · rcases hnew k p hk with hold | ⟨-, -, hown⟩
    · exact hi.own k p hold
    · exact hown
  · rcases heach k hk with ⟨hadj, htable⟩ | htold
    · left
      refine ⟨hadj, fun id rib rib' hrib hrib' => ?_⟩
      rw [hribs, hrib, Option.map_some, Option.some.injEq] at hrib'
      rw [← hrib']
      exact htable id rib hrib
    · right
      intro id rib' hrib'
      rw [hribs] at hrib'
      obtain ⟨rib, hrib, rfl⟩ := Option.map_eq_some_iff.mp hrib'
      refine ⟨(htold id rib hrib).1, fun p hp hlimit => ?_⟩
      rw [(htold id rib hrib).2 p hp hlimit]
      have hrules : (f id rib).inRules = rib.inRules := congrArg Prod.fst (hhead id rib)
      rw [hrules]
      rfl

/-- The peers have no part in the invariant. -/
theorem InInv.setPeer (hi : InInv env s) (q : PeerId) (peer : InPeer) :
    InInv env (s.setPeer q peer) := by
  have h : InInv env (s.write (fun _ rib => rib) (Function.update s.peers q peer) s.keys s.adjIn) :=
    hi.write (fun _ _ => rfl) hi.sorted (fun _ h => h) (fun _ _ h => Or.inl h)
      fun k _ => Or.inl ⟨rfl, fun _ _ _ => rfl⟩
  rw [RdeIn.write, forRibs_same] at h
  exact h

/-- Paths are removed everywhere. It makes no difference if a RIB is also told about paths that
    the Adj-RIB-In does not have, since no RIB has them either. -/
theorem InInv.remove (hi : InInv env s) (peers : PeerId → InPeer) (gone gone' : Key → Prop)
    [DecidablePred gone] [DecidablePred gone']
    (hiff : ∀ k, s.adjIn k ≠ none → (gone' k ↔ gone k)) :
    InInv env (s.write
      (fun _ rib => { rib with table := fun k => if gone' k then none else rib.table k })
        peers s.keys
      fun k => if gone k then none else s.adjIn k) := by
  refine hi.write (fun _ _ => rfl) hi.sorted (fun _ h => h) (fun k p hp => ?_) fun k hk => ?_
  · split_ifs at hp
    exact Or.inl hp
  · by_cases hnone : s.adjIn k = none
    · right
      intro id rib hrib
      have htable : rib.table k = none := hi.stray id rib k hrib hk hnone
      refine ⟨fun _ => ?_, fun p hp => ?_⟩
      · dsimp only
        rw [htable, ite_self]
      · simp [hnone] at hp
    · by_cases hgone : gone k
      · right
        intro id rib _
        refine ⟨fun _ => if_pos ((hiff k hnone).mpr hgone), fun p hp => ?_⟩
        simp [hgone] at hp
      · left
        exact ⟨if_neg hgone, fun id rib _ => if_neg (mt (hiff k hnone).mp hgone)⟩

theorem InInv.removePath (hi : InInv env s) (k : Key) : InInv env (s.removePath k) := by
  have h := hi.remove s.peers (· = k) (· = k) fun _ _ => Iff.rfl
  have hupdate : ∀ {β : Type} (g : Key → Option β),
      (fun k' => if k' = k then none else g k') = Function.update g k none := by
    intro β g
    funext k'
    rw [Function.update_apply]
  simp only [hupdate] at h
  exact h

theorem InInv.rdeUpdateWithdraw (hi : InInv env s) (h : s.rdeUpdateWithdraw k = some s') :
    InInv env s' := by
  unfold RdeIn.rdeUpdateWithdraw at h
  split_ifs at h <;> cases h
  · exact (hi.setPeer _ _).removePath k
  · exact hi.removePath k

theorem InInv.peerFlush (hi : InInv env s) {q : PeerId} {old : List (PtEntry × ℕ)}
    (h : s.peerFlush q old = some s') : InInv env s' := by
  unfold RdeIn.peerFlush at h
  split_ifs at h
  cases h
  -- one path after the other
  induction old generalizing s with
  | nil => exact hi
  | cons x old ih =>
    rw [List.foldl_cons]
    apply ih
    rw [RdeIn.flushPath]
    split_ifs
    · exact (hi.setPeer _ _).removePath _
    · exact hi

theorem InInv.peerDown (hi : InInv env s) (q : PeerId) : InInv env (s.peerDown q) := by
  have h := hi.remove (Function.update s.peers q { s.peers q with state := .down, prefixCnt := 0 })
    (fun k => k.peer = q) (fun k => k.peer = q ∧ (s.adjIn k).isSome) fun k hk =>
      and_iff_left (Option.isSome_iff_ne_none.mpr hk)
  exact h

theorem InInv.peerUp (hi : InInv env s) {q : PeerId} (h : s.peerUp q = some s') :
    InInv env s' := by
  unfold RdeIn.peerUp at h
  split_ifs at h <;> cases h
  · exact (hi.peerDown q).setPeer _ _
  · exact hi.setPeer _ _

theorem addKey_eq (s : RdeIn ρ) (pt : PtEntry) :
    s.addKey pt = { s with keys := (s.addKey pt).keys } := by
  rw [RdeIn.addKey]
  split_ifs <;> rfl

theorem mem_addKey {pt x : PtEntry} : x ∈ (s.addKey pt).keys ↔ x = pt ∨ x ∈ s.keys := by
  rw [RdeIn.addKey]
  split_ifs with hmem
  · constructor
    · exact Or.inr
    · rintro (rfl | h)
      · exact hmem
      · exact h
  · exact mem_insertKey

theorem InCore.sorted_addKey (hi : InCore env s) (pt : PtEntry) :
    (s.addKey pt).keys.Pairwise fun a b => ptLe a b = true := by
  rw [RdeIn.addKey]
  split_ifs
  · exact hi.sorted
  · exact insertKey_sorted hi.sorted

/-- A path is stored and every RIB is told about it, unless the limit is exceeded. -/
theorem InInv.store (hi : InInv env s) (hinet : k.peer ≠ peerself → k.pt.aid.isFlowspec = false)
    (hown : p.announced = true ↔ k.peer = peerself)
    (hhead : ∀ id rib, (f id rib).head = rib.head)
    (hothers : ∀ id rib k', k' ≠ k → (f id rib).table k' = rib.table k')
    (htold : k.peer ≠ peerself → p.overLimit = false → ∀ id rib, (f id rib).table k =
      RdeIn.filterEntry env s.filteredInLocrib id rib.inRules k p) :
    InInv env (s.write f peers (s.addKey k.pt).keys (Function.update s.adjIn k (some p))) := by
  refine hi.write hhead (hi.sorted_addKey k.pt) (fun x hx => mem_addKey.mpr (Or.inr hx))
    (fun k' p' hp' => ?_) fun k' hk' => ?_
  · by_cases heq : k' = k
    · subst heq
      rw [Function.update_self] at hp'
      cases hp'
      exact Or.inr ⟨mem_addKey.mpr (Or.inl rfl), hinet, hown⟩
    · rw [Function.update_of_ne heq] at hp'
      exact Or.inl hp'
  · by_cases heq : k' = k
    · subst heq
      right
      intro id rib _
      rw [Function.update_self]
      refine ⟨fun h => absurd h (Option.some_ne_none p), fun p' hp' hlimit => ?_⟩
      cases hp'
      exact htold hk' hlimit id rib
    · left
      exact ⟨Function.update_of_ne heq _ _, fun id rib _ => hothers id rib k' heq⟩

/-- An update stores the path. If the limit is exceeded, the RIBs are not told. -/
theorem rdeUpdateUpdate_cases {pathIdTx : ℕ} {state : FilterState}
    (h : s.rdeUpdateUpdate env k pathIdTx state = some s') :
    k.peer ≠ peerself ∧ k.pt.aid.isFlowspec = false ∧ ∃ (p : InPrefix) (peers : PeerId → InPeer),
      p.announced = false ∧
      ∃ f, s' = s.write f peers (s.addKey k.pt).keys (Function.update s.adjIn k (some p)) ∧
        (p.overLimit = true ∧ f = (fun _ rib => rib) ∨
          p.overLimit = false ∧ f = s.refilter env (RdeIn.one k p)) := by
  unfold RdeIn.rdeUpdateUpdate at h
  dsimp only at h
  rw [addKey_eq] at h
  generalize (if (s.adjIn k).isNone = true then _ else _) = peer at h
  generalize decide (peer.maxPrefix ≠ 0 ∧ peer.prefixCnt > peer.maxPrefix) = exceeded at h
  split_ifs at h with hguard hexceeded
  all_goals
    rw [not_or, not_or, not_or, not_or] at hguard
    obtain ⟨hpeer, -, hinet, hown, -⟩ := hguard
    rw [Option.some.injEq] at h
    have hown : (⟨pathIdTx, state, exceeded⟩ : InPrefix).announced = false := by
      simpa [InPrefix.announced] using hown
    refine ⟨hpeer, Bool.eq_false_iff.mpr hinet, ⟨pathIdTx, state, exceeded⟩, s'.peers, hown, ?_⟩
  · refine ⟨fun _ rib => rib, ?_, Or.inl ⟨hexceeded, rfl⟩⟩
    rw [← h, RdeIn.write, forRibs_same]
    rfl
  · refine ⟨_, ?_, Or.inr ⟨Bool.eq_false_iff.mpr hexceeded, rfl⟩⟩
    rw [← h]
    rfl

theorem refilter_of_none {todo : Key → Option InPrefix} (h : todo k = none) :
    (s.refilter env todo id rib).table k = rib.table k := by
  simp only [RdeIn.refilter, h]

theorem refilter_of_some {todo : Key → Option InPrefix} (h : todo k = some p) :
    (s.refilter env todo id rib).table k =
      RdeIn.filterEntry env s.filteredInLocrib id rib.inRules k p := by
  simp only [RdeIn.refilter, h]

theorem InInv.rdeUpdateUpdate (hi : InInv env s) {pathIdTx : ℕ} {state : FilterState}
    (h : s.rdeUpdateUpdate env k pathIdTx state = some s') : InInv env s' := by
  obtain ⟨hpeer, hinet, p, peers, hown, f, rfl, hf⟩ := rdeUpdateUpdate_cases h
  have hown : p.announced = true ↔ k.peer = peerself := by simp [hown, hpeer]
  rcases hf with ⟨hlimit, rfl⟩ | ⟨-, rfl⟩
  · exact hi.store (fun _ => hinet) hown (fun _ _ => rfl) (fun _ _ _ _ => rfl)
      fun _ hno => absurd hno (by simp [hlimit])
  · refine hi.store (fun _ => hinet) hown (fun _ _ => rfl) ?_ ?_
    · intro id rib k' hne
      exact refilter_of_none (if_neg hne)
    · intro _ _ id rib
      exact refilter_of_some (if_pos rfl)

theorem InInv.networkAdd (hi : InInv env s) {pt : PtEntry} {pathIdTx : ℕ} {state : FilterState}
    (h : s.networkAdd pt pathIdTx state = some s') : InInv env s' := by
  unfold RdeIn.networkAdd at h
  dsimp only at h
  rw [addKey_eq] at h
  split_ifs at h with hown
  cases h
  apply hi.store (k := ⟨pt, peerself, 0⟩)
  · exact fun hne => absurd rfl hne
  · simpa [InPrefix.announced] using hown
  · exact fun _ _ => rfl
  · intro id rib k' hne
    exact Function.update_of_ne hne _ _
  · exact fun hne => absurd rfl hne

/-! ## Walks -/

theorem InInv.setRpki (hi : InInv env s) (rpki : Cursor PtEntry) :
    InInv env { s with rpki := rpki } := by
  refine hi.change
    { soft := rfl, softreconfig := rfl, filtered := rfl, reconf := rfl, ribSize := rfl,
      ribs := fun _ => rfl, sorted := hi.sorted, keys := hi.keys, inet := hi.inet, own := hi.own,
      each := fun k _ => Or.inl ⟨rfl, fun id rib rib' h h' => ?_⟩ }
  cases h.symm.trans h'
  rfl

/-- A path with another validation state. All RIBs are told about it. -/
theorem InInv.rdeRpkiSoftreload (hi : InInv env s) (vstate : Key → ℕ) (pt : PtEntry) :
    InInv env (s.rdeRpkiSoftreload env vstate pt) := by
  let changed := fun k => (s.rpkiChanged vstate pt k).map fun p =>
    if p.announced then RdeIn.setVstate p (vstate k)
    else { RdeIn.setVstate p (vstate k) with overLimit := false }
  have hchanged : ∀ k p', changed k = some p' →
      ∃ p, s.adjIn k = some p ∧ p'.announced = p.announced := by
    intro k p' hp'
    obtain ⟨p, hp, rfl⟩ := Option.map_eq_some_iff.mp hp'
    unfold RdeIn.rpkiChanged at hp
    split_ifs at hp
    refine ⟨p, (Option.filter_eq_some_iff.mp hp).1, ?_⟩
    split_ifs <;> rfl
  show InInv env (s.write (s.refilter env fun k => (changed k).filter fun p => !p.announced) s.peers
    s.keys fun k => (changed k).or (s.adjIn k))
  refine hi.write (fun _ _ => rfl) hi.sorted (fun _ h => h) (fun k p hp => ?_) fun k hk => ?_
  · cases hc : changed k with
    | none =>
      rw [hc, Option.none_or] at hp
      exact Or.inl hp
    | some p' =>
      obtain ⟨p₀, hp₀, hann⟩ := hchanged k p' hc
      rw [hc, Option.some_or] at hp
      cases hp
      right
      refine ⟨hi.keys k (by simp [hp₀]), fun hk => hi.inet k hk (by simp [hp₀]), ?_⟩
      rw [hann]
      exact hi.own k p₀ hp₀
  · cases hc : changed k with
    | none =>
      left
      rw [Option.none_or]
      exact ⟨rfl, fun id rib _ => refilter_of_none (by rw [hc]; rfl)⟩
    | some p' =>
      obtain ⟨p₀, hp₀, hann⟩ := hchanged k p' hc
      have hann : p'.announced = false := by
        rw [hann]
        exact Bool.eq_false_iff.mpr (mt (hi.own k p₀ hp₀).mp hk)
      right
      intro id rib _
      rw [Option.some_or]
      refine ⟨fun h => absurd h (Option.some_ne_none p'), fun p hp _ => ?_⟩
      cases hp
      apply refilter_of_some
      rw [hc, Option.filter_some, if_pos]
      simp [hann]

theorem InInv.rpkiDumpR (hi : InInv env s) {n : ℕ} {vstate : Key → ℕ}
    (h : s.rpkiDumpR env n vstate = some s') : InInv env s' := by
  unfold RdeIn.rpkiDumpR at h
  split_ifs at h
  obtain ⟨⟨c, s₁⟩, hround, rfl⟩ := Option.map_eq_some_iff.mp h
  apply InInv.setRpki
  have hvisit : ∀ (s : RdeIn ρ) (pt : PtEntry) (s' : RdeIn ρ), InInv env s →
      some (s.rdeRpkiSoftreload env vstate pt) = some s' → InInv env s' := by
    intro s pt s' hi hs'
    cases hs'
    exact hi.rdeRpkiSoftreload vstate pt
  exact walkKeys_invariant hvisit hround hi

/-- All RIBs are reloaded, or the validation states of the paths are what they were. -/
def Reloads (vstate : Key → ℕ) (s : RdeIn ρ) : Prop :=
  (∀ id rib, s.ribs id = some rib → rib.state = .reload) ∨
    ∀ k p, k.peer ≠ peerself → s.adjIn k = some p → p.overLimit = false → vstate k = p.state.vstate

section Visit

variable {vstate : Key → ℕ} {pt : PtEntry}

/-- The Adj-RIB-In after a visit. -/
theorem adjIn_softreconfigIn (s : RdeIn ρ) (k : Key) :
    (s.rdeSoftreconfigIn env vstate pt).adjIn k =
      if k.pt = pt then (s.adjIn k).map fun p => RdeIn.setVstate p (vstate k) else s.adjIn k := by
  show (if k.pt = pt then (s.adjIn k).map fun p => RdeIn.setVstate p (vstate k)
    else none).or (s.adjIn k) = _
  split_ifs
  · cases s.adjIn k <;> rfl
  · rw [Option.none_or]

theorem exists_adjIn (h : (s.rdeSoftreconfigIn env vstate pt).adjIn k = some p) :
    ∃ p₀, s.adjIn k = some p₀ ∧ p.announced = p₀.announced ∧ p.overLimit = p₀.overLimit := by
  rw [adjIn_softreconfigIn] at h
  split_ifs at h
  · obtain ⟨p₀, hp₀, rfl⟩ := Option.map_eq_some_iff.mp h
    exact ⟨p₀, hp₀, rfl, rfl⟩
  · exact ⟨p, h, rfl, rfl⟩

/-- What a visit does to a RIB. -/
def RdeIn.visitRib (env : FilterEnv ρ) (vstate : Key → ℕ) (pt : PtEntry) (s : RdeIn ρ) (id : ℕ)
    (rib : InRib ρ) : InRib ρ :=
  if rib.state ≠ .reload then rib
  else s.refilter env (fun k => (if k.pt = pt then
    (s.adjIn k).map fun p => setVstate p (vstate k) else none).filter fun p => !p.announced) id rib

theorem InCore.ribs_softreconfigIn (hi : InCore env s) (id : ℕ) :
    (s.rdeSoftreconfigIn env vstate pt).ribs id =
      (s.ribs id).map (s.visitRib env vstate pt id) := by
  show (s.forRibs (s.visitRib env vstate pt)).ribs id = _
  exact hi.ribs_forRibs id

/-- A RIB after a visit. -/
theorem InCore.of_softreconfigIn (hi : InCore env s)
    (h : (s.rdeSoftreconfigIn env vstate pt).ribs id = some rib') :
    ∃ rib, s.ribs id = some rib ∧ rib'.inRules = rib.inRules ∧ rib'.state = rib.state ∧
      (∀ k, k.peer ≠ peerself → k.pt ≠ pt ∨ rib.state ≠ .reload ∨ s.adjIn k = none →
        rib'.table k = rib.table k) ∧
      ∀ k, k.peer ≠ peerself → k.pt = pt → rib.state = .reload →
        ∀ p, (s.rdeSoftreconfigIn env vstate pt).adjIn k = some p →
          rib'.table k = RdeIn.filterEntry env s.filteredInLocrib id rib.inRules k p := by
  rw [hi.ribs_softreconfigIn] at h
  obtain ⟨rib, hrib, rfl⟩ := Option.map_eq_some_iff.mp h
  refine ⟨rib, hrib, ?_⟩
  unfold RdeIn.visitRib
  by_cases hstate : rib.state = .reload
  · rw [if_neg (not_not.mpr hstate)]
    refine ⟨rfl, rfl, fun k hk hout => ?_, fun k hk hpt _ p hp => ?_⟩
    · apply refilter_of_none
      rcases hout with hpt | hno | hnone
      · rw [if_neg hpt]
        rfl
      · exact absurd hstate hno
      · rw [hnone]
        split_ifs <;> rfl
    · apply refilter_of_some
      obtain ⟨p₀, hp₀, hann, -⟩ := exists_adjIn hp
      have hann : p.announced = false := by
        rw [hann]
        exact Bool.eq_false_iff.mpr (mt (hi.own k p₀ hp₀).mp hk)
      rw [adjIn_softreconfigIn, if_pos hpt] at hp
      rw [if_pos hpt, hp, Option.filter_some, if_pos]
      simp [hann]
  · rw [if_pos hstate]
    exact ⟨rfl, rfl, fun _ _ _ => rfl, fun _ _ _ h => absurd h hstate⟩

/-- A RIB that is not reloaded keeps its path, and the path its validation state. -/
theorem adjIn_of_reloads (hok : Reloads vstate s) (hrib : s.ribs id = some rib)
    (hstate : rib.state ≠ .reload) (hk : k.peer ≠ peerself)
    (hp : (s.rdeSoftreconfigIn env vstate pt).adjIn k = some p) (hlimit : p.overLimit = false) :
    s.adjIn k = some p := by
  rw [adjIn_softreconfigIn] at hp
  split_ifs at hp
  · obtain ⟨p₀, hp₀, rfl⟩ := Option.map_eq_some_iff.mp hp
    rcases hok with hall | hsame
    · exact absurd (hall id rib hrib) hstate
    · rw [hp₀, RdeIn.setVstate, hsame k p₀ hk hp₀ hlimit]
  · exact hp

theorem InCore.agreeAt_visit (hi : InCore env s) (hok : Reloads vstate s) (hk : k.peer ≠ peerself)
    (hrib' : (s.rdeSoftreconfigIn env vstate pt).ribs id = some rib')
    (hcase : rib'.state ≠ .reload ∨ k.pt = pt ∨ ∀ rib, s.ribs id = some rib →
      AgreeAt env s id rib k) :
    AgreeAt env (s.rdeSoftreconfigIn env vstate pt) id rib' k := by
  obtain ⟨rib, hrib, hrules, hst, hkeep, htold⟩ := hi.of_softreconfigIn hrib'
  intro p hp hlimit
  show rib'.table k = RdeIn.filterEntry env s.filteredInLocrib id rib'.inRules k p
  rw [hrules]
  by_cases hstate : rib.state = .reload
  · by_cases hpt : k.pt = pt
    · exact htold k hk hpt hstate p hp
    · rcases hcase with hno | heq | hagree
      · exact absurd (hst.trans hstate) hno
      · exact absurd heq hpt
      · rw [hkeep k hk (Or.inl hpt)]
        rw [adjIn_softreconfigIn, if_neg hpt] at hp
        exact hagree rib hrib p hp hlimit
  · rw [hkeep k hk (Or.inr (Or.inl hstate))]
    exact hi.settled id rib k hrib hk hstate p
      (adjIn_of_reloads hok hrib hstate hk hp hlimit) hlimit

/-- Visiting one prefix keeps what holds during a walk. -/
theorem InCore.visit (hi : InCore env s) (hok : Reloads vstate s) :
    InCore env (s.rdeSoftreconfigIn env vstate pt) where
  sorted := hi.sorted
  keys k hk := by
    obtain ⟨p, hp⟩ := Option.ne_none_iff_exists'.mp hk
    obtain ⟨p₀, hp₀, -⟩ := exists_adjIn hp
    exact hi.keys k (by simp [hp₀])
  inet k hpeer hk := by
    obtain ⟨p, hp⟩ := Option.ne_none_iff_exists'.mp hk
    obtain ⟨p₀, hp₀, -⟩ := exists_adjIn hp
    exact hi.inet k hpeer (by simp [hp₀])
  own k p hp := by
    obtain ⟨p₀, hp₀, hann, -⟩ := exists_adjIn hp
    rw [hann]
    exact hi.own k p₀ hp₀
  bound id rib' h' := by
    obtain ⟨rib, h, -⟩ := hi.of_softreconfigIn h'
    exact hi.bound id rib h
  first := by
    rw [hi.ribs_softreconfigIn, Option.isSome_map]
    exact hi.first
  reconf hr := by
    obtain ⟨hsoft, hcount, hstate⟩ := hi.reconf hr
    refine ⟨hsoft, hcount, fun id rib' h' => ?_⟩
    obtain ⟨rib, h, -, hst, -⟩ := hi.of_softreconfigIn h'
    rw [hst]
    exact hstate id rib h
  stray id rib' k h' hk hnone := by
    obtain ⟨rib, h, -, -, hkeep, -⟩ := hi.of_softreconfigIn h'
    have hnone : s.adjIn k = none := by
      rw [adjIn_softreconfigIn] at hnone
      split_ifs at hnone
      · exact Option.map_eq_none_iff.mp hnone
      · exact hnone
    rw [hkeep k hk (Or.inr (Or.inr hnone))]
    exact hi.stray id rib k h hk hnone
  settled id rib' k h' hk hstate := hi.agreeAt_visit hok hk h' (Or.inl hstate)

theorem InCore.reloads_visit (hi : InCore env s) (hok : Reloads vstate s) :
    Reloads vstate (s.rdeSoftreconfigIn env vstate pt) := by
  rcases hok with hall | hsame
  · left
    intro id rib' h'
    obtain ⟨rib, h, -, hst, -⟩ := hi.of_softreconfigIn h'
    rw [hst]
    exact hall id rib h
  · right
    intro k p hk hp hlimit
    rw [adjIn_softreconfigIn] at hp
    split_ifs at hp
    · obtain ⟨p₀, hp₀, rfl⟩ := Option.map_eq_some_iff.mp hp
      rfl
    · exact hsame k p hk hp hlimit

end Visit

/-- A visit fills the RIBs that are reloaded. -/
theorem softreconfigIn_visits (vstate : Key → ℕ) (keys : List PtEntry) :
    Visits (fun _ _ => false)
      (fun pt s => some (RdeIn.rdeSoftreconfigIn env vstate pt s))
      (fun s => InCore env s ∧ Reloads vstate s ∧ s.keys = keys ∧ s.reconf = false)
      (Good env) where
  skipped _ _ h := absurd h (by simp)
  inv s pt s' := by
    rintro ⟨hi, hok, hkeys, hr⟩ hs'
    cases hs'
    exact ⟨hi.visit hok, hi.reloads_visit hok, hkeys, hr⟩
  good s pt s' := by
    rintro ⟨hi, hok, -⟩ hs' id rib' k h' hk hpt
    cases hs'
    exact hi.agreeAt_visit hok hk h' (Or.inr (Or.inl hpt))
  others s pt s' := by
    rintro ⟨hi, hok, -⟩ hs' pt' hgood id rib' k h' hk hpt
    cases hs'
    exact hi.agreeAt_visit hok hk h' (Or.inr (Or.inr fun rib h => hgood id rib k h hk hpt))

end Bgpd.Rde.Softreconfig
