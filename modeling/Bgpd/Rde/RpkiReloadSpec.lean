import Bgpd.Lib.Run
import Bgpd.Rde.RibSpec
import Bgpd.Rde.RpkiReload

/-!
# Transfers of Tables

After every change of the tables a walk over the Adj-RIB-In validates all paths again. A
transfer that ends while such a walk is under way is dropped, so the tables in use are those
of the last transfer that ended while no walk was under way.

## Main results

- `CacheOk`: what the AS path objects know about the table in use
- `softreload_visits`: a visit leaves the validation states of a destination right
- `rpki_settled`: tables and validation states when no walk is under way
-/

namespace Bgpd.Rde.RpkiReload

open Bgpd.Lib Bgpd.Rpki

variable {env : RpkiEnv} {s s' : RdeRpki} {pt : PtEntry} {paths paths' : PathTable}

/-! ## Validation -/

/-- ASPA validation is done for the paths of the peer. -/
def Covered (peer : InPeer) (aid : Aid) : Prop := peer.ebgp = true ∧ (aid = .inet ∨ aid = .inet6)

theorem rdeAspaValidity_of_not_covered {peer : InPeer} {aid : Aid} (h : ¬Covered peer aid)
    (state : RdeAspaState) : rdeAspaValidity peer state aid = .neverKnown := by
  unfold rdeAspaValidity
  by_cases hebgp : peer.ebgp = false
  · rw [if_pos hebgp]
  · rw [if_neg hebgp, if_pos]
    rw [← not_or]
    exact fun haid => h ⟨by simpa using hebgp, haid⟩

/-- The validation itself never has the result that it is not needed. -/
def Known (state : RdeAspaState) : Prop :=
  state.onlyup ≠ .neverKnown ∧ state.downup ≠ .neverKnown

theorem rdeAspaValidity_of_covered {peer : InPeer} {aid : Aid} (h : Covered peer aid)
    {state : RdeAspaState} (hs : Known state) : rdeAspaValidity peer state aid ≠ .neverKnown := by
  unfold rdeAspaValidity
  have haid : ¬(aid ≠ .inet ∧ aid ≠ .inet6) := by
    rw [← not_or, not_not]
    exact h.2
  rw [if_neg (by simp [h.1]), if_neg haid]
  split_ifs
  · simp
  · exact hs.2
  · exact hs.1

theorem known_aspaValidation (ra : Option RdeAspa) (path : Aspath) :
    Known (Rpki.aspaValidation ra path) := by
  have hfinal : ∀ st : AspaState, Known (aspaCheckFinalize st) := by
    intro st
    unfold Known aspaCheckFinalize
    constructor
    · dsimp only
      split_ifs <;> simp
    · dsimp only
      split_ifs <;> simp
  unfold Rpki.aspaValidation
  split
  · exact ⟨by simp, by simp⟩
  · split_ifs
    · exact ⟨by simp, by simp⟩
    · split
      · exact ⟨by simp, by simp⟩
      · exact hfinal _

/-- The validation state of a path is the one under the tables in use. -/
def Right (env : RpkiEnv) (s : RdeRpki) (pt : PtEntry) (p : InPrefix) : Prop :=
  p.roaVstate = rdeRoaValidity s.roa pt (aspathOrigin env.localAs p.aspath.aspath) ∧
    p.aspaVstate = rdeAspaValidity (env.peer p.peer) (s.aspaValidation p.aspath.aspath) pt.aid

/-- All paths of a destination have the right validation state. -/
def RightAt (env : RpkiEnv) (s : RdeRpki) (pt : PtEntry) : Prop :=
  ∀ p ∈ s.adjIn pt, Right env s pt p

/-! ## The path table -/

/-- An object of the current generation has the result for the table in use. -/
def CacheOk (s : RdeRpki) (asp : RdeAspath) (cache : AspaCache) : Prop :=
  cache.generation ≤ s.generation ∧
    (cache.generation = s.generation → cache.state = s.aspaValidation asp.aspath)

def PathsOk (s : RdeRpki) (paths : PathTable) : Prop :=
  ∀ asp cache, paths asp = some cache → CacheOk s asp cache

theorem PathsOk.update (h : PathsOk s paths) {asp : RdeAspath} {cache : AspaCache}
    (hc : CacheOk s asp cache) : PathsOk s (Function.update paths asp (some cache)) := by
  intro asp' cache' h'
  rw [Function.update_apply] at h'
  split at h'
  · next heq =>
    cases h'
    rwa [heq]
  · exact h asp' cache' h'

/-- What the Adj-RIB-In and the path table have in common. -/
structure PathInv (env : RpkiEnv) (s : RdeRpki) : Prop where
  paths : PathsOk s s.paths
  refs : ∀ pt, ∀ p ∈ s.adjIn pt, (s.paths p.aspath).isSome = true
  kind : ∀ pt, ∀ p ∈ s.adjIn pt, p.aspaVstate = .neverKnown ↔ ¬Covered (env.peer p.peer) pt.aid

/-! ## Visits -/

/-- The object is brought up to date if needed, so that the result is the one under the
    tables in use. -/
theorem softreloadAspa_spec {p : InPrefix} (hp : PathsOk s paths)
    (href : (paths p.aspath).isSome = true)
    (hkind : p.aspaVstate = .neverKnown ↔ ¬Covered (env.peer p.peer) pt.aid) :
    ∃ paths', RdeRpki.softreloadAspa env s pt p paths =
        some (rdeAspaValidity (env.peer p.peer) (s.aspaValidation p.aspath.aspath) pt.aid, paths') ∧
      PathsOk s paths' ∧ ∀ asp, (paths asp).isSome = true → (paths' asp).isSome = true := by
  unfold RdeRpki.softreloadAspa
  split_ifs with hnever
  · refine ⟨paths, ?_, hp, fun _ h => h⟩
    rw [rdeAspaValidity_of_not_covered (hkind.mp hnever)]
  · obtain ⟨cache, hcache⟩ := Option.isSome_iff_exists.mp href
    rw [hcache, Option.map_some]
    have hok := hp _ _ hcache
    have hkeep : ∀ c asp, (paths asp).isSome = true →
        (Function.update paths p.aspath (some c) asp).isSome = true := by
      intro c asp h
      rw [Function.update_apply]
      split
      · rfl
      · exact h
    by_cases hgen : cache.generation = s.generation
    · rw [if_neg (not_not.mpr hgen)]
      refine ⟨_, ?_, hp.update hok, hkeep cache⟩
      dsimp only
      rw [hok.2 hgen]
    · rw [if_pos hgen]
      have hnew : CacheOk s p.aspath ⟨s.aspaValidation p.aspath.aspath, s.generation⟩ :=
        ⟨le_rfl, fun _ => rfl⟩
      exact ⟨_, rfl, hp.update hnew, hkeep _⟩

/-- The reload gives every path of the prefix the state of the new table. -/
theorem softreloadPrefixes_spec {l : List InPrefix} (hp : PathsOk s paths)
    (href : ∀ p ∈ l, (paths p.aspath).isSome = true)
    (hkind : ∀ p ∈ l, p.aspaVstate = .neverKnown ↔ ¬Covered (env.peer p.peer) pt.aid) :
    ∃ l' paths', RdeRpki.softreloadPrefixes env s pt l paths = some (l', paths') ∧
      PathsOk s paths' ∧ (∀ asp, (paths asp).isSome = true → (paths' asp).isSome = true) ∧
      (∀ p' ∈ l', Right env s pt p' ∧ ∃ p ∈ l, p'.aspath = p.aspath) ∧ (l = [] → l' = []) := by
  induction l generalizing paths with
  | nil => exact ⟨[], paths, rfl, hp, fun _ h => h, by simp, fun _ => rfl⟩
  | cons p l ih =>
    obtain ⟨paths₁, h₁, hp₁, hkeep₁⟩ := softreloadAspa_spec hp
      (href p (List.mem_cons_self ..)) (hkind p (List.mem_cons_self ..))
    obtain ⟨l', paths', h', hp', hkeep', hl', -⟩ := ih hp₁
      (fun q hq => hkeep₁ _ (href q (List.mem_cons_of_mem _ hq)))
      (fun q hq => hkind q (List.mem_cons_of_mem _ hq))
    have hrun : RdeRpki.softreloadPrefixes env s pt (p :: l) paths = some
        ({ p with
            roaVstate := rdeRoaValidity s.roa pt (aspathOrigin env.localAs p.aspath.aspath)
            aspaVstate :=
              rdeAspaValidity (env.peer p.peer) (s.aspaValidation p.aspath.aspath) pt.aid } :: l',
          paths') := by
      rw [RdeRpki.softreloadPrefixes, h₁]
      dsimp only [bind, Option.bind]
      rw [h']
    refine ⟨_, paths', hrun, hp', fun asp h => hkeep' asp (hkeep₁ asp h), ?_, by simp⟩
    · intro q hq
      rcases List.mem_cons.mp hq with rfl | hq
      · exact ⟨⟨rfl, rfl⟩, p, List.mem_cons_self .., rfl⟩
      · obtain ⟨hright, x, hx, hasp⟩ := hl' q hq
        exact ⟨hright, x, List.mem_cons_of_mem _ hx, hasp⟩

theorem Right.kind {p : InPrefix} (h : Right env s pt p) :
    p.aspaVstate = .neverKnown ↔ ¬Covered (env.peer p.peer) pt.aid := by
  rw [h.2]
  constructor
  · intro hnever hcov
    exact rdeAspaValidity_of_covered hcov (known_aspaValidation _ _) hnever
  · intro hcov
    exact rdeAspaValidity_of_not_covered hcov _

/-- `rde_rpki_softreload`: the paths of the destination are right, the rest is as before. -/
theorem rdeRpkiSoftreload_spec (hi : PathInv env s)
    (h : RdeRpki.rdeRpkiSoftreload env pt s = some s') :
    ∃ l' paths', s' = { s with adjIn := Function.update s.adjIn pt l', paths := paths' } ∧
      PathInv env s' ∧ RightAt env s' pt ∧ (s.adjIn pt = [] → l' = []) := by
  obtain ⟨l', paths', hrun, hp', hkeep, hl', hnil⟩ :=
    softreloadPrefixes_spec hi.paths (hi.refs pt) (hi.kind pt)
  unfold RdeRpki.rdeRpkiSoftreload at h
  rw [hrun] at h
  cases h
  refine ⟨l', paths', rfl, ⟨hp', fun pt' p hp => ?_, fun pt' p hp => ?_⟩, fun p hp => ?_, hnil⟩
  · dsimp only at hp ⊢
    rw [Function.update_apply] at hp
    split at hp
    · obtain ⟨-, q, hq, hasp⟩ := hl' p hp
      rw [hasp]
      exact hkeep _ (hi.refs pt q hq)
    · exact hkeep _ (hi.refs pt' p hp)
  · dsimp only at hp
    rw [Function.update_apply] at hp
    split at hp
    · next heq =>
      rw [heq]
      exact (hl' p hp).1.kind
    · exact hi.kind pt' p hp
  · dsimp only at hp
    rw [Function.update_self] at hp
    exact (hl' p hp).1

/-! ## The invariant -/

/-- What holds whether or not a walk is under way. -/
structure RpkiCore (env : RpkiEnv) (s : RdeRpki) : Prop extends PathInv env s where
  sorted : s.keys.Pairwise fun a b => ptLe a b = true
  keys : ∀ pt, s.adjIn pt ≠ [] → pt ∈ s.keys
  -- objects that no validation was done for have the generation 0
  first : s.generation = 0 → s.aspa = none
  small : s.generation < 2 ^ 8
  table : ∃ sets : List (ℕ × List ℕ), sets.Pairwise (fun a b => b.1 < a.1) ∧
    aspaTransfer sets = .ok s.aspa

/-- The paths that the walk has left behind are right. -/
structure RpkiInv (env : RpkiEnv) (s : RdeRpki) : Prop extends RpkiCore env s where
  pending : s.pending = true ↔ s.dump ≠ .idle
  behind : Behind ptLe (RightAt env) s.keys s.dump s

theorem RpkiInv.init : RpkiInv env {} where
  paths := by intro asp cache h; cases h
  refs := by simp
  kind := by simp
  sorted := List.Pairwise.nil
  keys := by simp
  first _ := rfl
  small := by decide
  table := ⟨[], List.Pairwise.nil, rfl⟩
  pending := by simp
  behind := by simp [Behind]

theorem ptLe_refl (pt : PtEntry) : ptLe pt pt = true := by simp [ptLe]

/-- The visits of the walk. They leave the list of destinations and the flag alone. -/
theorem softreload_visits (keys : List PtEntry) (pending : Bool) :
    Visits (fun (s : RdeRpki) pt => decide (s.adjIn pt = [])) (RdeRpki.rdeRpkiSoftreload env)
      (fun s => RpkiCore env s ∧ s.keys = keys ∧ s.pending = pending) (RightAt env) where
  skipped s pt hskip p hp := by
    rw [decide_eq_true_eq] at hskip
    rw [hskip] at hp
    cases hp
  inv s pt s' hi h := by
    obtain ⟨hi, hframe⟩ := hi
    obtain ⟨l', paths', rfl, hinv, -, hnil⟩ := rdeRpkiSoftreload_spec hi.toPathInv h
    refine ⟨⟨hinv, hi.sorted, fun pt' hne => ?_, hi.first, hi.small, hi.table⟩, hframe⟩
    apply hi.keys
    intro hempty
    dsimp only at hne
    rw [Function.update_apply] at hne
    split at hne
    · next heq =>
      rw [heq] at hempty
      exact hne (hnil hempty)
    · exact hne hempty
  good s pt s' hi h := by
    obtain ⟨-, -, -, -, hgood, -⟩ := rdeRpkiSoftreload_spec hi.1.toPathInv h
    exact hgood
  others s pt s' hi h pt' hpt' := by
    obtain ⟨l', paths', rfl, -, hgood, -⟩ := rdeRpkiSoftreload_spec hi.1.toPathInv h
    by_cases heq : pt' = pt
    · rw [heq]
      exact hgood
    · intro p hp
      dsimp only at hp
      rw [Function.update_of_ne heq] at hp
      exact hpt' p hp

theorem RpkiInv.ribDumpR (hi : RpkiInv env s) {n : ℕ} (h : s.ribDumpR env n = some s') :
    RpkiInv env s' := by
  unfold RdeRpki.ribDumpR at h
  split_ifs at h with hidle
  obtain ⟨⟨dump, s₁⟩, hwalk, rfl⟩ := Option.map_eq_some_iff.mp h
  obtain ⟨⟨hcore, hkeys, hpending⟩, hbehind⟩ := hi.behind.round
    (softreload_visits s.keys s.pending) ptLe_refl hi.sorted ⟨hi.toRpkiCore, rfl, rfl⟩ hwalk
  refine ⟨⟨⟨hcore.paths, hcore.refs, hcore.kind⟩, hcore.sorted, hcore.keys, hcore.first,
    hcore.small, hcore.table⟩, ?_, ?_⟩
  · dsimp only
    rw [hpending, hi.pending.mpr hidle]
    by_cases hdump : dump = .idle <;> simp [hdump]
  · rw [← hkeys] at hbehind
    exact hbehind

/-! ## Paths come and go -/

/-- Tables and walk are as before. -/
structure SameTables (s s' : RdeRpki) : Prop where
  roa : s'.roa = s.roa
  aspa : s'.aspa = s.aspa
  generation : s'.generation = s.generation
  pending : s'.pending = s.pending
  dump : s'.dump = s.dump

theorem SameTables.aspaValidation (h : SameTables s s') : s'.aspaValidation = s.aspaValidation := by
  unfold RdeRpki.aspaValidation
  rw [h.aspa]

theorem SameTables.right (h : SameTables s s') {p : InPrefix} :
    Right env s' pt p ↔ Right env s pt p := by
  unfold Right
  rw [h.roa, h.aspaValidation]

theorem SameTables.pathsOk (h : SameTables s s') : PathsOk s' paths ↔ PathsOk s paths := by
  unfold PathsOk CacheOk
  rw [h.generation, h.aspaValidation]

/-- Paths that are new are right. -/
theorem RpkiInv.change (hi : RpkiInv env s) (hsame : SameTables s s')
    (hsorted : s'.keys.Pairwise fun a b => ptLe a b = true)
    (hkeys : ∀ pt, s'.adjIn pt ≠ [] → pt ∈ s'.keys) (hpaths : PathsOk s s'.paths)
    (hrefs : ∀ pt, ∀ p ∈ s'.adjIn pt, (s'.paths p.aspath).isSome = true)
    (hadj : ∀ pt, ∀ p ∈ s'.adjIn pt, Right env s pt p ∨ p ∈ s.adjIn pt) : RpkiInv env s' where
  paths := hsame.pathsOk.mpr hpaths
  refs := hrefs
  kind pt p hp := by
    rcases hadj pt p hp with hright | hold
    · exact hright.kind
    · exact hi.kind pt p hold
  sorted := hsorted
  keys := hkeys
  first := by
    rw [hsame.generation, hsame.aspa]
    exact hi.first
  small := by
    rw [hsame.generation]
    exact hi.small
  table := by
    rw [hsame.aspa]
    exact hi.table
  pending := by
    rw [hsame.pending, hsame.dump]
    exact hi.pending
  behind k _ := by
    rw [hsame.dump]
    by_cases hmem : k ∈ s.keys
    · rcases hi.behind k hmem with hahead | hgood
      · exact Or.inl hahead
      · right
        intro p hp
        apply hsame.right.mpr
        exact (hadj k p hp).elim (fun h => h) (hgood p)
    · -- a new destination has no paths of before
      right
      intro p hp
      apply hsame.right.mpr
      apply (hadj k p hp).resolve_right
      intro hold
      exact hmem (hi.keys k (List.ne_nil_of_mem hold))

theorem pathGetcache_spec (s : RdeRpki) (asp : RdeAspath) (cache : AspaCache) :
    ∃ paths, s.pathGetcache asp cache = { s with paths := paths } ∧
      (CacheOk s asp cache → PathsOk s s.paths → PathsOk s paths) ∧ (paths asp).isSome = true ∧
      ∀ asp', (s.paths asp').isSome = true → (paths asp').isSome = true := by
  unfold RdeRpki.pathGetcache
  split_ifs with hsome
  · exact ⟨s.paths, rfl, fun _ h => h, hsome, fun _ h => h⟩
  · refine ⟨_, rfl, fun hc hp => hp.update hc, by simp, fun asp' h => ?_⟩
    rw [Function.update_apply]
    split
    · rfl
    · exact h

theorem RpkiInv.pathLink (hi : RpkiInv env s) {asp : RdeAspath} {cache : AspaCache}
    (hc : CacheOk s asp cache) : RpkiInv env (s.pathGetcache asp cache) := by
  obtain ⟨paths, heq, hok, -, hkeep⟩ := pathGetcache_spec s asp cache
  rw [heq]
  refine hi.change ⟨rfl, rfl, rfl, rfl, rfl⟩ hi.sorted hi.keys (hok hc hi.paths) ?_ ?_
  · exact fun pt p hp => hkeep _ (hi.refs pt p hp)
  · exact fun pt p hp => Or.inr hp

/-- Freeing an attribute set keeps the invariant. -/
theorem RpkiInv.pathUnlink (hi : RpkiInv env s) {asp : RdeAspath}
    (h : s.pathUnlink asp = some s') : RpkiInv env s' := by
  unfold RdeRpki.pathUnlink at h
  split_ifs at h with hfree
  cases h
  refine hi.change ⟨rfl, rfl, rfl, rfl, rfl⟩ hi.sorted hi.keys ?_ ?_ ?_
  · intro asp' cache h'
    dsimp only at h'
    rw [Function.update_apply] at h'
    split at h'
    · cases h'
    · exact hi.paths asp' cache h'
  · intro pt p hp
    have hne : p.aspath ≠ asp := by
      intro heq
      apply hfree
      rw [List.any_eq_true]
      refine ⟨pt, hi.keys pt (List.ne_nil_of_mem hp), List.any_eq_true.mpr ⟨p, hp, ?_⟩⟩
      exact decide_eq_true heq
    dsimp only
    rw [Function.update_of_ne hne]
    exact hi.refs pt p hp
  · exact fun pt p hp => Or.inr hp

/-- Fewer paths. -/
theorem RpkiInv.remove (hi : RpkiInv env s) {adjIn : PtEntry → List InPrefix}
    (hsub : ∀ pt, ∀ p ∈ adjIn pt, p ∈ s.adjIn pt) : RpkiInv env { s with adjIn := adjIn } := by
  refine hi.change ⟨rfl, rfl, rfl, rfl, rfl⟩ hi.sorted ?_ hi.paths ?_ ?_
  · intro pt hne
    obtain ⟨p, hp⟩ := List.exists_mem_of_ne_nil _ hne
    exact hi.keys pt (List.ne_nil_of_mem (hsub pt p hp))
  · exact fun pt p hp => hi.refs pt p (hsub pt p hp)
  · exact fun pt p hp => Or.inr (hsub pt p hp)

theorem RpkiInv.rdeUpdateWithdraw (hi : RpkiInv env s) (peer : PeerId) (pathId : ℕ)
    (pt : PtEntry) : RpkiInv env (s.rdeUpdateWithdraw peer pathId pt) := by
  apply hi.remove
  intro pt' p hp
  rw [Function.update_apply] at hp
  split at hp
  · next heq =>
    rw [heq]
    exact (List.mem_filter.mp hp).1
  · exact hp

theorem RpkiInv.peerFlush (hi : RpkiInv env s) (peer : PeerId) (old : PtEntry → ℕ → Bool) :
    RpkiInv env (s.peerFlush peer old) := by
  apply hi.remove
  intro pt p hp
  exact (List.mem_filter.mp hp).1

/-- The cached result of a new path. -/
theorem RpkiInv.cacheOk (hi : RpkiInv env s) (peer : PeerId) (asp : RdeAspath) :
    CacheOk s asp
      (if (env.peer peer).ebgp then ⟨s.aspaValidation asp.aspath, s.generation⟩ else {}) := by
  split_ifs
  · exact ⟨le_rfl, fun _ => rfl⟩
  · refine ⟨Nat.zero_le _, fun hgen => ?_⟩
    -- without a table every result is unknown
    unfold RdeRpki.aspaValidation
    rw [hi.first hgen.symm]
    rfl

/-- An update enters with the state of the current tables. -/
theorem RpkiInv.rdeUpdateUpdate (hi : RpkiInv env s) (peer : PeerId) (pathId : ℕ) (pt : PtEntry)
    (asp : RdeAspath) : RpkiInv env (s.rdeUpdateUpdate env peer pathId pt asp) := by
  unfold RdeRpki.rdeUpdateUpdate
  have hc := hi.cacheOk peer asp
  -- the state that is computed is the one of the tables
  have hright : ∀ state, state = (if (env.peer peer).ebgp then
      AspaCache.mk (s.aspaValidation asp.aspath) s.generation else {}).state →
      rdeAspaValidity (env.peer peer) state pt.aid =
        rdeAspaValidity (env.peer peer) (s.aspaValidation asp.aspath) pt.aid := by
    rintro state rfl
    split_ifs with hebgp
    · rfl
    · have hcov : ¬Covered (env.peer peer) pt.aid := fun h => hebgp h.1
      rw [rdeAspaValidity_of_not_covered hcov, rdeAspaValidity_of_not_covered hcov]
  generalize (if (env.peer peer).ebgp then
    AspaCache.mk (s.aspaValidation asp.aspath) s.generation else {}) = cache at *
  obtain ⟨paths, heq, hok, hnew, hkeep⟩ := pathGetcache_spec s asp cache
  dsimp only
  rw [heq]
  -- the new path, or one that was there
  have hmem : ∀ pt' p, p ∈ Function.update s.adjIn pt
      ({ peer := peer, pathId := pathId, aspath := asp
         roaVstate := rdeRoaValidity s.roa pt (aspathOrigin env.localAs asp.aspath)
         aspaVstate := rdeAspaValidity (env.peer peer) cache.state pt.aid } ::
        (s.adjIn pt).filter fun q => !RdeRpki.samePath peer pathId q) pt' →
      (Right env s pt' p ∧ p.aspath = asp) ∨ p ∈ s.adjIn pt' := by
    intro pt' p hp
    rw [Function.update_apply] at hp
    split at hp
    · next hpt =>
      rw [hpt]
      rcases List.mem_cons.mp hp with rfl | hp
      · exact Or.inl ⟨⟨rfl, hright _ rfl⟩, rfl⟩
      · exact Or.inr (List.mem_filter.mp hp).1
    · exact Or.inr hp
  refine hi.change ⟨rfl, rfl, rfl, rfl, rfl⟩ ?_ ?_ (hok hc hi.paths) ?_ ?_
  · dsimp only
    split_ifs
    · exact hi.sorted
    · exact insertKey_sorted hi.sorted
  · intro pt' hne
    dsimp only at hne ⊢
    rw [Function.update_apply] at hne
    have hold : pt' = pt ∨ pt' ∈ s.keys := by
      split at hne
      · next hpt => exact Or.inl hpt
      · exact Or.inr (hi.keys pt' hne)
    split_ifs with hin
    · rcases hold with rfl | hold
      · exact hin
      · exact hold
    · exact mem_insertKey.mpr hold
  -- the caches of the paths are up to date
  · intro pt' p hp
    rcases hmem pt' p hp with ⟨-, rfl⟩ | hold
    · exact hnew
    · exact hkeep _ (hi.refs pt' p hold)
  · intro pt' p hp
    exact (hmem pt' p hp).imp_left And.left

/-! ## New tables -/

/-- What the end of a transfer does: nothing while a walk is under way; otherwise the tables
    are the new ones, and a walk starts unless they are those of before. -/
theorem reconfDone_cases {t : RtrTransfer} (h : s.reconfDone t = some s') :
    ∃ aspaNew, aspaTransfer t.aspas = .ok aspaNew ∧
      (s.pending = true ∧ s' = s ∨
      s.pending = false ∧ roaTable t.roas = s.roa ∧ aspaTableEqual aspaNew s.aspa = true ∧
        s' = { s with roa := roaTable t.roas, aspa := aspaNew } ∨
      s.pending = false ∧ ∃ generation,
        (aspaTableEqual aspaNew s.aspa = true ∧ generation = s.generation ∨
          aspaTableEqual aspaNew s.aspa = false ∧ generation = (s.generation + 1) % 2 ^ 8) ∧
        s' = { s with
          roa := roaTable t.roas, aspa := aspaNew, generation := generation
          pending := true, dump := .start }) := by
  unfold RdeRpki.reconfDone at h
  cases htrans : aspaTransfer t.aspas with
  | error e =>
    rw [htrans] at h
    cases h
  | ok aspaNew =>
    rw [htrans] at h
    refine ⟨aspaNew, rfl, ?_⟩
    simp only [Except.toOption, Option.map_some, Option.some.injEq] at h
    subst h
    cases hpending : s.pending with
    | true =>
      left
      simp [RdeRpki.rdeRoaReload, RdeRpki.rdeAspaReload, RdeRpki.rdeRpkiReload, hpending]
    | false =>
      right
      cases hroa : trieEqual (roaTable t.roas) s.roa <;>
        cases haspa : aspaTableEqual aspaNew s.aspa <;>
        simp [RdeRpki.rdeRoaReload, RdeRpki.rdeAspaReload, RdeRpki.rdeRpkiReload, hpending, hroa,
          haspa]
      exact trieEqual_iff.mp hroa

/-- The 8 bits of the generation do not overflow, and objects that other parts of the RDE link
    have the ASPA result of their own AS path if they are of the current generation. -/
def RpkiOk (s : RdeRpki) : RpkiEvent → Prop
  | .transfer t => ∀ aspaNew ∈ (aspaTransfer t.aspas).toOption,
      s.generation ≤ (s.rdeAspaReload aspaNew).2.generation
  | .pathLink asp cache => CacheOk s asp cache
  | _ => True

/-- A finished transfer leaves every path with its right state. -/
theorem RpkiInv.reconfDone (hi : RpkiInv env s) {t : RtrTransfer} (hok : RpkiOk s (.transfer t))
    (h : s.reconfDone t = some s') : RpkiInv env s' := by
  obtain ⟨aspaNew, hnew, hcases⟩ := reconfDone_cases h
  rcases hcases with ⟨-, rfl⟩ | ⟨-, hroa, haspa, rfl⟩ | ⟨hpending, generation, hgen, rfl⟩
  · exact hi
  · -- the tables are those of before
    obtain ⟨sets, hsorted, htable⟩ := hi.table
    have heq := aspaTableEqual_eq t.sorted hsorted hnew htable haspa
    rw [hroa, heq]
    exact hi
  · have hle : s.generation ≤ generation ∧ generation < 2 ^ 8 ∧
        (generation = s.generation → aspaNew = s.aspa) := by
      rcases hgen with ⟨haspa, rfl⟩ | ⟨haspa, rfl⟩
      · obtain ⟨sets, hsorted, htable⟩ := hi.table
        exact ⟨le_rfl, hi.small, fun _ => aspaTableEqual_eq t.sorted hsorted hnew htable haspa⟩
      · have hok := hok aspaNew (by rw [hnew]; rfl)
        simp only [RdeRpki.rdeAspaReload, hpending, haspa, Bool.false_eq_true, if_false] at hok
        have := hi.small
        refine ⟨hok, Nat.mod_lt _ (by decide), fun h => ?_⟩
        omega
    constructor
    · constructor
      · refine ⟨fun asp cache hcache => ?_, hi.refs, hi.kind⟩
        have hc := hi.paths asp cache hcache
        refine ⟨hc.1.trans hle.1, fun hg => ?_⟩
        -- an object of the new generation: the table has not changed
        have hsame : generation = s.generation := by
          have h₁ : cache.generation ≤ s.generation := hc.1
          have h₂ : cache.generation = generation := hg
          have h₃ := hle.1
          omega
        rw [hc.2 (hg.trans hsame)]
        unfold RdeRpki.aspaValidation
        rw [hle.2.2 hsame]
      · exact hi.sorted
      · exact hi.keys
      · intro hzero
        have hzero : generation = 0 := hzero
        have hsame : s.generation = 0 := by
          have := hle.1
          omega
        show aspaNew = none
        rw [hle.2.2 (hzero.trans hsame.symm)]
        exact hi.first hsame
      · exact hle.2.1
      · exact ⟨t.aspas, t.sorted, hnew⟩
    · simp
    · exact behind_start _ _

/-! ## Runs -/

theorem RpkiInv.step {e : RpkiEvent} (hi : RpkiInv env s) (hok : RpkiOk s e)
    (h : rpkiStep env s e = some s') : RpkiInv env s' := by
  cases e with
  | update peer pathId pt asp =>
    cases h
    exact hi.rdeUpdateUpdate peer pathId pt asp
  | withdraw peer pathId pt =>
    cases h
    exact hi.rdeUpdateWithdraw peer pathId pt
  | flush peer old =>
    cases h
    exact hi.peerFlush peer old
  | pathLink asp cache =>
    cases h
    exact hi.pathLink hok
  | pathUnlink asp => exact hi.pathUnlink h
  | transfer t => exact hi.reconfDone hok h
  | dumpR n => exact hi.ribDumpR h

/-- Every transfer ends while a walk is under way. -/
def Skipped (s : RdeRpki) : RpkiEvent → Prop
  | .transfer _ => s.pending = true
  | _ => True

/-- The tables only change when a transfer ends that is not dropped. -/
theorem tables_of_skipped {e : RpkiEvent} (hs : Skipped s e) (h : rpkiStep env s e = some s') :
    s'.roa = s.roa ∧ s'.aspa = s.aspa := by
  cases e with
  | update peer pathId pt asp =>
    cases h
    obtain ⟨paths, heq, -⟩ := pathGetcache_spec s asp
      (if (env.peer peer).ebgp then ⟨s.aspaValidation asp.aspath, s.generation⟩ else {})
    unfold RdeRpki.rdeUpdateUpdate
    dsimp only
    rw [heq]
    exact ⟨rfl, rfl⟩
  | withdraw peer pathId pt =>
    cases h
    exact ⟨rfl, rfl⟩
  | flush peer old =>
    cases h
    exact ⟨rfl, rfl⟩
  | pathLink asp cache =>
    cases h
    obtain ⟨paths, heq, -⟩ := pathGetcache_spec s asp cache
    rw [heq]
    exact ⟨rfl, rfl⟩
  | pathUnlink asp =>
    simp only [rpkiStep, RdeRpki.pathUnlink] at h
    split_ifs at h
    cases h
    exact ⟨rfl, rfl⟩
  | transfer t =>
    obtain ⟨aspaNew, -, hcases⟩ := reconfDone_cases h
    have hs : s.pending = true := hs
    -- a transfer that comes while one is pending is dropped
    rcases hcases with ⟨-, rfl⟩ | ⟨hp, -⟩ | ⟨hp, -⟩
    · exact ⟨rfl, rfl⟩
    · rw [hs] at hp
      cases hp
    · rw [hs] at hp
      cases hp
  | dumpR n =>
    simp only [rpkiStep, RdeRpki.ribDumpR] at h
    split_ifs at h
    obtain ⟨⟨dump, s₁⟩, hwalk, rfl⟩ := Option.map_eq_some_iff.mp h
    have hvisit : ∀ (s₂ : RdeRpki) k s₃, (s₂.roa = s.roa ∧ s₂.aspa = s.aspa) →
        RdeRpki.rdeRpkiSoftreload env k s₂ = some s₃ → (s₃.roa = s.roa ∧ s₃.aspa = s.aspa) := by
      intro s₂ k s₃ hs₂ hcall
      unfold RdeRpki.rdeRpkiSoftreload at hcall
      obtain ⟨x, -, rfl⟩ := Option.map_eq_some_iff.mp hcall
      exact hs₂
    have hframe : (fun s₂ : RdeRpki => s₂.roa = s.roa ∧ s₂.aspa = s.aspa) s₁ :=
      walkKeys_invariant hvisit hwalk ⟨rfl, rfl⟩
    exact hframe

theorem tables_of_skipped_run {es : List RpkiEvent}
    (h : Run (rpkiStep env) (fun s e => RpkiOk s e ∧ Skipped s e) s es s') :
    s'.roa = s.roa ∧ s'.aspa = s.aspa := by
  induction h with
  | nil s => exact ⟨rfl, rfl⟩
  | cons hok hstep _ ih =>
    obtain ⟨hroa, haspa⟩ := tables_of_skipped hok.2 hstep
    exact ⟨ih.1.trans hroa, ih.2.trans haspa⟩

/-- A transfer ends while no walk is under way, and all later ones while a walk is. As soon as
    no walk is under way any more, the tables are those of this transfer and all paths of the
    Adj-RIB-In are validated with them. -/
theorem rpki_settled {s₁ s₂ : RdeRpki} {es₁ es₂ : List RpkiEvent} {t : RtrTransfer}
    (h₁ : Run (rpkiStep env) RpkiOk {} es₁ s₁) (hidle : s₁.pending = false)
    (hok : RpkiOk s₁ (.transfer t)) (ht : rpkiStep env s₁ (.transfer t) = some s₂)
    (h₂ : Run (rpkiStep env) (fun s e => RpkiOk s e ∧ Skipped s e) s₂ es₂ s)
    (hend : s.pending = false) :
    s.roa = roaTable t.roas ∧ aspaTransfer t.aspas = .ok s.aspa ∧
      ∀ pt, ∀ p ∈ s.adjIn pt,
        p.roaVstate = rdeRoaValidity s.roa pt (aspathOrigin env.localAs p.aspath.aspath) ∧
        p.aspaVstate =
          rdeAspaValidity (env.peer p.peer) (s.aspaValidation p.aspath.aspath) pt.aid := by
  have hstep : ∀ s e s', RpkiInv env s → RpkiOk s e → rpkiStep env s e = some s' →
      RpkiInv env s' := fun _ _ _ hi he hs => hi.step he hs
  have hinv : RpkiInv env s := by
    have hinv₁ := h₁.invariant hstep RpkiInv.init
    have h₂' := h₂.mono (fun _ _ h => h.1)
    exact h₂'.invariant hstep (hinv₁.step hok ht)
  obtain ⟨hroa, haspa⟩ := tables_of_skipped_run h₂
  have htables : s₂.roa = roaTable t.roas ∧ aspaTransfer t.aspas = .ok s₂.aspa := by
    obtain ⟨aspaNew, hnew, hcases⟩ := reconfDone_cases ht
    rcases hcases with ⟨hp, -⟩ | ⟨-, -, -, rfl⟩ | ⟨-, generation, -, rfl⟩
    · rw [hidle] at hp
      cases hp
    · exact ⟨rfl, hnew⟩
    · exact ⟨rfl, hnew⟩
  refine ⟨hroa.trans htables.1, haspa ▸ htables.2, fun pt p hp => ?_⟩
  have hdump : s.dump = .idle := by
    by_contra hne
    rw [hinv.pending.mpr hne] at hend
    cases hend
  have hbehind := hinv.behind
  rw [hdump] at hbehind
  exact hbehind.of_idle pt (hinv.keys pt (List.ne_nil_of_mem hp)) p hp

instance (s : RdeRpki) (asp : RdeAspath) (cache : AspaCache) : Decidable (CacheOk s asp cache) := by
  unfold CacheOk
  infer_instance

instance (s : RdeRpki) (e : RpkiEvent) : Decidable (RpkiOk s e) := by
  cases e <;> unfold RpkiOk <;> infer_instance

instance (s : RdeRpki) (e : RpkiEvent) : Decidable (Skipped s e) := by
  cases e <;> unfold Skipped <;> infer_instance

/-- All peers are providers of the local AS. -/
def sampleEnv : RpkiEnv where
  localAs := 65000
  peer _ := ⟨true, .customer⟩

/-- The destination `10.0.0.0/8`. -/
def samplePt : PtEntry := ⟨.inet, 10 * 2 ^ 24, 8⟩

/-- The AS path `65001 65002`. -/
def samplePath : RdeAspath := { aspath := [⟨.asSequence, [65001, 65002]⟩] }

/-- One ROA for `10.0.0.0/8`, and one ASPA set. -/
def sampleTransfer (as : ℕ) : RtrTransfer where
  roas := [.v4 ⟨0x0a000000, 8, 8, as⟩]
  aspas := [(65002, [65001])]

/-- The ROA is for the origin of the path. The transfer behind it ends while the walk is under
    way. -/
theorem rpki_settled_sample :
    ∃ s, s.pending = false ∧ s.roa = roaTable (sampleTransfer 65002).roas ∧
      (∃ p ∈ s.adjIn samplePt, p.roaVstate = .valid ∧ p.aspaVstate = .valid) ∧
      ∀ pt, ∀ p ∈ s.adjIn pt, Right sampleEnv s pt p := by
  obtain ⟨s₁, h₁, hidle, hok, hrest⟩ := exists_run (rpkiStep sampleEnv) RpkiOk {}
    [.update 2 0 samplePt samplePath]
    (fun s₁ => s₁.pending = false ∧ RpkiOk s₁ (.transfer (sampleTransfer 65002)) ∧
      (rpkiStep sampleEnv s₁ (.transfer (sampleTransfer 65002))).any (fun s₂ =>
        (execRun (rpkiStep sampleEnv) (fun s e => RpkiOk s e ∧ Skipped s e) s₂
          [.transfer (sampleTransfer 65001), .dumpR 3]).any fun s =>
            s.pending = false ∧
              ∃ p ∈ s.adjIn samplePt, p.roaVstate = .valid ∧ p.aspaVstate = .valid) = true)
    (by decide +kernel)
  obtain ⟨s₂, ht, hrest⟩ := (Option.any_eq_true _ _).mp hrest
  obtain ⟨s, h₂, hend⟩ := (Option.any_eq_true _ _).mp hrest
  rw [decide_eq_true_eq] at hend
  have hmain := rpki_settled h₁ hidle hok ht (run_of_execRun h₂) hend.1
  exact ⟨s, hend.1, hmain.1, hend.2, hmain.2.2⟩

/-- The second transfer ends while the walk for the first one is under way. It is lost: when
    the walk is over, the path is still validated with the tables of the first one. -/
theorem rpki_transfer_lost :
    ∃ s, Run (rpkiStep sampleEnv) (fun _ _ => True) {}
        [.update 2 0 samplePt samplePath, .transfer (sampleTransfer 65001),
          .transfer (sampleTransfer 65002), .dumpR 3] s ∧
      s.pending = false ∧ ∃ p ∈ s.adjIn samplePt, p.roaVstate ≠
        rdeRoaValidity (roaTable (sampleTransfer 65002).roas) samplePt
          (aspathOrigin sampleEnv.localAs p.aspath.aspath) :=
  exists_run (rpkiStep sampleEnv) (fun _ _ => True) {} _
    (fun s => s.pending = false ∧ ∃ p ∈ s.adjIn samplePt, p.roaVstate ≠
      rdeRoaValidity (roaTable (sampleTransfer 65002).roas) samplePt
        (aspathOrigin sampleEnv.localAs p.aspath.aspath)) (by decide +kernel)

end Bgpd.Rde.RpkiReload
