import Bgpd.Lib.Run
import Bgpd.Rde.SoftreconfigSpec

/-!
# Loc-RIBs and Input Filters

Every Loc-RIB holds what its rules make of the paths in the Adj-RIB-In. There are two
exceptions. An update that exceeds the limit of a peer is stored in the Adj-RIB-In and nothing
else happens, since the session is about to be closed. And `rde_softreconfig_in` sets the
validation states of paths, but fills only those RIBs again that are reloaded; the results here
are about runs in which it changes no validation state that another RIB depends on.

## Main results

- `InInv.reloadDone`: after a change of the configuration only RIBs that are reloaded disagree
- `InInv.step`: every event keeps the invariant
- `locrib_filtered`: what the Loc-RIBs hold when no walk is under way
-/

namespace Bgpd.Rde.Softreconfig

open Bgpd.Lib

variable {ρ : Type} {env : FilterEnv ρ} {s s' : RdeIn ρ} {id : ℕ} {rib rib' : InRib ρ} {k : Key}
  {p : InPrefix}

/-! ## Reloads -/

/-- The configuration of the RIBs changes, and all of them agree about all paths. -/
theorem InInv.of_agree (hi : InInv env s) (hkeys : s'.keys = s.keys) (hadj : s'.adjIn = s.adjIn)
    (hbound : ∀ id rib, s'.ribs id = some rib → ribLocStart ≤ id ∧ id < s'.ribSize)
    (hfirst : (s'.ribs ribLocStart).isSome = true)
    (hreconf : s'.reconf = true → s'.soft = .idle ∧ s'.softreconfig = 0 ∧
      ∀ id rib, s'.ribs id = some rib → rib.state ≠ .none)
    (hall : ∀ id rib k, s'.ribs id = some rib → k.peer ≠ peerself →
      (s.adjIn k = none → rib.table k = none) ∧ AgreeAt env s' id rib k) : InInv env s' where
  sorted := hkeys ▸ hi.sorted
  keys := hkeys ▸ hadj ▸ hi.keys
  inet := hadj ▸ hi.inet
  own := hadj ▸ hi.own
  bound := hbound
  first := hfirst
  reconf := hreconf
  stray id rib k h hk hnone := (hall id rib k h hk).1 (hadj ▸ hnone)
  settled id rib k h hk _ := (hall id rib k h hk).2
  behind _ _ := Or.inr fun id rib k h hk _ => (hall id rib k h hk).2

/-- Only the states of the RIBs change while no walk is under way. -/
theorem InInv.setStates (hi : InInv env s) (hidle : s.soft = .idle) (hkeys : s'.keys = s.keys)
    (hadj : s'.adjIn = s.adjIn) (hfiltered : s'.filteredInLocrib = s.filteredInLocrib)
    (hsize : s'.ribSize = s.ribSize) {state : ReconfAction}
    (hribs : ∀ id, s'.ribs id = (s.ribs id).map fun rib => { rib with state := state })
    (hreconf : s'.reconf = true → s'.soft = .idle ∧ s'.softreconfig = 0 ∧ state ≠ .none) :
    InInv env s' := by
  have hbefore : ∀ id rib', s'.ribs id = some rib' →
      ∃ rib, s.ribs id = some rib ∧ { rib with state := state } = rib' := by
    intro id rib' h'
    rw [hribs] at h'
    exact Option.map_eq_some_iff.mp h'
  apply hi.of_agree hkeys hadj
  · intro id rib' h'
    obtain ⟨rib, h, -⟩ := hbefore id rib' h'
    rw [hsize]
    exact hi.bound id rib h
  · rw [hribs, Option.isSome_map]
    exact hi.first
  · intro hr
    obtain ⟨hsoft, hcount, hne⟩ := hreconf hr
    refine ⟨hsoft, hcount, fun id rib' h' => ?_⟩
    obtain ⟨rib, h, rfl⟩ := hbefore id rib' h'
    exact hne
  · intro id rib' k h' hk
    obtain ⟨rib, h, rfl⟩ := hbefore id rib' h'
    refine ⟨fun hnone => hi.stray id rib k h hk hnone, fun p hp hlimit => ?_⟩
    rw [hfiltered]
    exact hi.agree hidle h hk p (hadj ▸ hp) hlimit

theorem InInv.rdeSoftreconfigInDone (hi : InInv env s) (hr : s.reconf = false)
    (h : s.soft = .idle ∨ 1 < s.softreconfig) : InInv env s.rdeSoftreconfigInDone := by
  unfold RdeIn.rdeSoftreconfigInDone
  dsimp only
  split_ifs with hcount
  · -- another one is not done
    refine ⟨⟨hi.sorted, hi.keys, hi.inet, hi.own, hi.bound, hi.first, fun hr' => ?_, hi.stray,
      hi.settled⟩, hi.behind⟩
    exact absurd (hr.symm.trans hr') (by simp)
  · have hidle : s.soft = .idle := h.resolve_right (by omega)
    exact hi.setStates hidle rfl rfl rfl rfl (fun _ => rfl)
      fun hr' => absurd (hr.symm.trans hr') (by simp)

/-- A round of the soft reconfiguration keeps the invariant. -/
theorem InInv.softDumpR (hi : InInv env s) {n : ℕ} {vstate : Key → ℕ} (hok : Reloads vstate s)
    (h : s.softDumpR env n vstate = some s') : InInv env s' := by
  unfold RdeIn.softDumpR at h
  split_ifs at h with hidle
  obtain ⟨⟨c, s₁⟩, hround, rfl⟩ := Option.map_eq_some_iff.mp h
  have hr : s.reconf = false := Bool.eq_false_iff.mpr fun hr => hidle (hi.reconf hr).1
  obtain ⟨⟨hcore, -, hkeys, hr₁⟩, hbehind⟩ :=
    hi.behind.round (softreconfigIn_visits vstate s.keys) RpkiReload.ptLe_refl hi.sorted
      ⟨hi.toInCore, hok, rfl, hr⟩ hround
  have hi₁ : InInv env { s₁ with soft := c } := by
    refine ⟨⟨hcore.sorted, hcore.keys, hcore.inet, hcore.own, hcore.bound, hcore.first,
      fun hr' => ?_, hcore.stray, hcore.settled⟩, ?_⟩
    · exact absurd (hr₁.symm.trans hr') (by simp)
    · show Behind ptLe (Good env) s₁.keys c _
      rw [hkeys]
      exact hbehind
  dsimp only
  split_ifs with hc
  · exact hi₁.rdeSoftreconfigInDone hr₁ (Or.inl hc)
  · exact hi₁

theorem InInv.flushDone (hi : InInv env s) (h : s.flushDone = some s') : InInv env s' := by
  unfold RdeIn.flushDone at h
  by_cases hcount : s.softreconfig > if s.soft = .idle then 0 else 1
  · rw [if_pos hcount, Option.some.injEq] at h
    subst h
    apply hi.rdeSoftreconfigInDone
    · exact Bool.eq_false_iff.mpr fun hr => absurd (hi.reconf hr).2.1 (by omega)
    · split_ifs at hcount with hidle
      · exact Or.inl hidle
      · exact Or.inr hcount
  · rw [if_neg hcount] at h
    cases h

theorem InInv.reconfConf (hi : InInv env s) (h : s.reconfConf = some s') : InInv env s' := by
  unfold RdeIn.reconfConf at h
  split_ifs at h with hguard
  rw [not_or, not_or, not_not, not_not] at hguard
  obtain ⟨-, hidle, hcount⟩ := hguard
  cases h
  exact hi.setStates hidle rfl rfl rfl rfl (fun _ => rfl) fun _ => ⟨hidle, hcount, by simp⟩

/-- A RIB without rules and paths is right, since everything is denied. -/
theorem filterEntry_noRules {filtered : Bool} (hid : id ≠ ribLocStart)
    (hinet : k.pt.aid.isFlowspec = false) :
    RdeIn.filterEntry env filtered id env.noRules k p = none := by
  simp [RdeIn.filterEntry, env.deny k.peer k.pt p.state hinet, hid]

/-- A RIB is new, or only its state changes. -/
theorem reconfRib_cases {changed : Bool} (h : s.reconfRib env id changed = some s') :
    s.reconf = true ∧ ribLocStart ≤ id ∧ ∃ rib : InRib ρ, rib.state ≠ .none ∧
      s' = { s with
        ribs := Function.update s.ribs id (some rib), ribSize := max s.ribSize (id + 1) } ∧
      (s.ribs id = none ∧ rib.inRules = env.noRules ∧ rib.table = (fun _ => none) ∨
        ∃ rib₀, s.ribs id = some rib₀ ∧ rib.inRules = rib₀.inRules ∧ rib.table = rib₀.table) := by
  unfold RdeIn.reconfRib at h
  dsimp only at h
  by_cases hr : s.reconf = false
  · simp [hr] at h
  by_cases hid : id < ribLocStart
  · simp [hid] at h
  rw [if_neg hr, if_neg hid, Option.some.injEq] at h
  refine ⟨Bool.eq_true_of_not_eq_false hr, not_lt.mp hid, ?_⟩
  cases hrib : s.ribs id with
  | none =>
    rw [hrib] at h
    exact ⟨_, by simp, h.symm, Or.inl ⟨rfl, rfl, rfl⟩⟩
  | some rib₀ =>
    rw [hrib] at h
    refine ⟨_, ?_, h.symm, Or.inr ⟨rib₀, rfl, rfl, rfl⟩⟩
    dsimp only
    split_ifs <;> simp

/-- Reconfiguring one RIB keeps the invariant. -/
theorem InInv.reconfRib (hi : InInv env s) {changed : Bool}
    (h : s.reconfRib env id changed = some s') : InInv env s' := by
  obtain ⟨hr, hid, rib, hne, rfl, hrib⟩ := reconfRib_cases h
  obtain ⟨hidle, hcount, hstate⟩ := hi.reconf hr
  have hcases : ∀ id' rib', Function.update s.ribs id (some rib) id' = some rib' →
      id' = id ∧ rib' = rib ∨ s.ribs id' = some rib' := by
    intro id' rib' h'
    by_cases heq : id' = id
    · subst heq
      rw [Function.update_self, Option.some.injEq] at h'
      exact Or.inl ⟨rfl, h'.symm⟩
    · rw [Function.update_of_ne heq] at h'
      exact Or.inr h'
  refine hi.of_agree rfl rfl ?_ ?_ ?_ ?_
  · intro id' rib' h'
    rcases hcases id' rib' h' with ⟨rfl, rfl⟩ | hold
    · exact ⟨hid, lt_max_of_lt_right (by omega)⟩
    · exact ⟨(hi.bound id' rib' hold).1, lt_max_of_lt_left (hi.bound id' rib' hold).2⟩
  · dsimp only
    rw [Function.update_apply]
    split_ifs
    · rfl
    · exact hi.first
  · intro _
    refine ⟨hidle, hcount, fun id' rib' h' => ?_⟩
    rcases hcases id' rib' h' with ⟨rfl, rfl⟩ | hold
    · exact hne
    · exact hstate id' rib' hold
  · intro id' rib' k h' hk
    rcases hcases id' rib' h' with ⟨rfl, rfl⟩ | hold
    · rcases hrib with ⟨hnone, hrules, htable⟩ | ⟨rib₀, h₀, hrules, htable⟩
      · have hother : id' ≠ ribLocStart := by
          rintro rfl
          simpa [hnone] using hi.first
        refine ⟨fun _ => by rw [htable], fun p hp _ => ?_⟩
        have hp : s.adjIn k = some p := hp
        rw [htable, hrules, filterEntry_noRules hother (hi.inet k hk (by simp [hp]))]
      · refine ⟨fun hnone => ?_, fun p hp hlimit => ?_⟩
        · rw [htable]
          exact hi.stray id' rib₀ k h₀ hk hnone
        · rw [htable, hrules]
          exact hi.agree hidle h₀ hk p hp hlimit
    · exact ⟨hi.stray id' rib' k hold hk, hi.agree hidle hold hk⟩

section ReloadDone

variable {filtered force : Bool} {rules : ℕ → ρ}

/-- Only the first Loc-RIB depends on `filtered_in_locrib`. -/
theorem filterEntry_filtered {filtered' : Bool} {rule : ρ}
    (h : ¬(filtered ≠ filtered' ∧ id = ribLocStart)) :
    RdeIn.filterEntry env filtered' id rule k p = RdeIn.filterEntry env filtered id rule k p := by
  by_cases hid : id = ribLocStart
  · have heq : filtered = filtered' := by
      by_contra hne
      exact h ⟨hne, hid⟩
    rw [heq]
  · simp [RdeIn.filterEntry, hid]

variable [DecidableEq ρ]

/-- A RIB keeps its paths, and if it is not reloaded, nothing that matters for it changed. -/
theorem reloadRib_spec (hstate : rib.state ≠ .none)
    (h : RdeIn.reloadRib force rules id rib = some rib') :
    rib'.table = rib.table ∧
      (rib'.state = .reload ∨ rib'.inRules = rib.inRules ∧ ¬(force = true ∧ id = ribLocStart)) := by
  unfold RdeIn.reloadRib at h
  dsimp only at h
  cases hst : rib.state <;> rw [hst] at h <;> dsimp only at h
  case none => exact absurd hst hstate
  case delete => cases h
  case reinit =>
    cases h
    exact ⟨rfl, Or.inl rfl⟩
  all_goals
    split_ifs at h with hsync
    · cases h
      exact ⟨rfl, Or.inr ⟨hsync.2, hsync.1⟩⟩
    · cases h
      exact ⟨rfl, Or.inl rfl⟩

/-- A RIB after the `switch`, and the one that it was. -/
theorem InInv.of_reloadRib (hi : InInv env s) (hr : s.reconf = true)
    (h : (s.ribs id).bind (RdeIn.reloadRib (decide (s.filteredInLocrib ≠ filtered)) rules id) =
      some rib') :
    ∃ rib, s.ribs id = some rib ∧ rib'.table = rib.table ∧
      (rib'.state ≠ .reload → ∀ k p, RdeIn.filterEntry env filtered id rib'.inRules k p =
        RdeIn.filterEntry env s.filteredInLocrib id rib.inRules k p) := by
  obtain ⟨rib, hrib, hreload⟩ := Option.bind_eq_some_iff.mp h
  obtain ⟨htable, hcase⟩ := reloadRib_spec ((hi.reconf hr).2.2 id rib hrib) hreload
  refine ⟨rib, hrib, htable, fun hne k p => ?_⟩
  obtain ⟨hrules, hforce⟩ := hcase.resolve_left hne
  rw [hrules]
  apply filterEntry_filtered
  simpa using hforce

/-- The configuration changed, and the walk has not started yet. -/
theorem InInv.core_reloaded (hi : InInv env s) (hr : s.reconf = true)
    (hfirst : ¬∃ rib ∈ s.ribs ribLocStart, rib.state = .delete) (filtered : Bool) (rules : ℕ → ρ)
    (softreconfig : ℕ) :
    InCore env { s with
      reconf := false, filteredInLocrib := filtered, softreconfig := softreconfig
      ribs := fun id =>
        (s.ribs id).bind (RdeIn.reloadRib (decide (s.filteredInLocrib ≠ filtered)) rules id) } where
  sorted := hi.sorted
  keys := hi.keys
  inet := hi.inet
  own := hi.own
  bound id rib' h' := by
    obtain ⟨rib, h, -⟩ := hi.of_reloadRib hr h'
    exact hi.bound id rib h
  first := by
    obtain ⟨rib, hrib⟩ := Option.isSome_iff_exists.mp hi.first
    have hdelete : rib.state ≠ .delete := fun h => hfirst ⟨rib, hrib, h⟩
    dsimp only
    rw [hrib, Option.bind_some, RdeIn.reloadRib]
    cases hst : rib.state <;> dsimp only
    case delete => exact absurd hst hdelete
    all_goals try split_ifs
    all_goals rfl
  reconf hr' := absurd hr' (by simp)
  stray id rib' k h' hk hnone := by
    obtain ⟨rib, h, htable, -⟩ := hi.of_reloadRib hr h'
    rw [htable]
    exact hi.stray id rib k h hk hnone
  settled id rib' k h' hk hne := by
    obtain ⟨rib, h, htable, hsame⟩ := hi.of_reloadRib hr h'
    intro p hp hlimit
    rw [htable, hsame hne]
    exact hi.agree (hi.reconf hr).1 h hk p hp hlimit

/-- Only RIBs that are reloaded disagree, and if there is one, then a walk is started. -/
theorem InInv.reloadDone (hi : InInv env s) {roleChange : Bool} {flushes : ℕ}
    (h : s.rdeReloadDone filtered rules roleChange flushes = some s') : InInv env s' := by
  unfold RdeIn.rdeReloadDone at h
  by_cases hguard : s.reconf = false ∨ ∃ rib ∈ s.ribs ribLocStart, rib.state = .delete
  · rw [if_pos hguard] at h
    cases h
  rw [if_neg hguard] at h
  rw [not_or] at hguard
  have hr : s.reconf = true := Bool.eq_true_of_not_eq_false hguard.1
  have hcore : InCore env _ :=
    hi.core_reloaded hr hguard.2 filtered rules (flushes + 1)
  dsimp only at h
  split_ifs at h with hreload
  · cases h
    exact ⟨⟨hcore.sorted, hcore.keys, hcore.inet, hcore.own, hcore.bound, hcore.first,
      fun hr' => absurd hr' (by simp), hcore.stray, hcore.settled⟩, behind_start _ _⟩
  · cases h
    have hidle := (hi.reconf hr).1
    rw [Bool.or_eq_true, not_or] at hreload
    have hnone : ∀ id rib', (s.ribs id).bind
        (RdeIn.reloadRib (decide (s.filteredInLocrib ≠ filtered)) rules id) = some rib' →
        rib'.state ≠ .reload := by
      intro id rib' h' hst
      apply hreload.2
      rw [List.any_eq_true]
      refine ⟨id, List.mem_range.mpr (hcore.bound id rib' h').2, ?_⟩
      rw [h']
      simp [hst]
    refine InInv.rdeSoftreconfigInDone ?_ rfl (Or.inl hidle)
    refine hi.of_agree rfl rfl hcore.bound hcore.first hcore.reconf fun id rib' k h' hk => ?_
    exact ⟨hcore.stray id rib' k h' hk, hcore.settled id rib' k h' hk (hnone id rib' h')⟩

end ReloadDone

/-! ## Runs -/

theorem ribs_init (h : (RdeIn.init env).ribs id = some rib) :
    id = ribLocStart ∧ rib = { inRules := env.noRules } := by
  have h : Function.update (fun _ => none) ribLocStart (some { inRules := env.noRules }) id =
      some rib := h
  rw [Function.update_apply] at h
  split_ifs at h with heq
  exact ⟨heq, (Option.some.inj h).symm⟩

theorem InInv.init : InInv env (RdeIn.init env) where
  sorted := List.Pairwise.nil
  keys k h := absurd rfl h
  inet k _ h := absurd rfl h
  own k p h := nomatch h
  bound id rib h := by
    obtain ⟨rfl, -⟩ := ribs_init h
    exact ⟨le_rfl, Nat.lt_succ_self 1⟩
  first := by simp [RdeIn.init]
  reconf h := nomatch h
  stray id rib k h _ _ := by
    obtain ⟨-, rfl⟩ := ribs_init h
    rfl
  settled id rib k h _ _ p hp := nomatch hp
  behind pt h := absurd h List.not_mem_nil

/-- `rde_softreconfig_in` changes no validation state that a RIB depends on that is not
    reloaded. -/
def SoftOk (s : RdeIn ρ) : InEvent ρ → Prop
  | .softDumpR _ vstate => Reloads vstate s
  | _ => True

variable [DecidableEq ρ]

/-- Every event keeps the invariant of the inbound side. -/
theorem InInv.step (hi : InInv env s) {e : InEvent ρ} (hok : SoftOk s e)
    (h : inStep env s e = some s') : InInv env s' := by
  cases e with
  | update k pathIdTx state => exact hi.rdeUpdateUpdate h
  | withdraw k => exact hi.rdeUpdateWithdraw h
  | flush q old => exact hi.peerFlush h
  | peerUp q => exact hi.peerUp h
  | peerDown q =>
    rw [inStep] at h
    split_ifs at h
    cases h
    exact hi.peerDown q
  | peerStale q =>
    cases h
    exact hi.setPeer q _
  | maxPrefix q n =>
    cases h
    exact hi.setPeer q _
  | networkAdd pt pathIdTx state => exact hi.networkAdd h
  | networkDelete pt =>
    cases h
    exact hi.removePath _
  | rpkiReload =>
    cases h
    rw [RdeIn.rdeRpkiReload]
    split_ifs
    · exact hi.setRpki _
    · exact hi
  | rpkiDumpR n vstate => exact hi.rpkiDumpR h
  | softDumpR n vstate => exact hi.softDumpR hok h
  | flushDone => exact hi.flushDone h
  | reconfConf => exact hi.reconfConf h
  | reconfRib id changed => exact hi.reconfRib h
  | reloadDone filtered rules roleChange flushes => exact hi.reloadDone h

/-- When no walk of a reload is under way, every RIB holds what its rules make of the paths of
    the neighbors, and no other path of a neighbor. -/
theorem locrib_filtered {es : List (InEvent ρ)} (h : Run (inStep env) SoftOk (RdeIn.init env) es s)
    (hidle : s.soft = .idle) (hrib : s.ribs id = some rib) (hk : k.peer ≠ peerself) :
    (∀ p, s.adjIn k = some p → p.overLimit = false → FilteredBy env s id rib k p) ∧
      (s.adjIn k = none → rib.table k = none) := by
  have hi : InInv env s := by
    refine h.invariant ?_ InInv.init
    intro s e s' hi hok hstep
    exact hi.step hok hstep
  constructor
  · intro p hp hlimit
    exact filteredBy_iff.mpr (hi.agree hidle hrib hk p hp hlimit)
  · exact hi.stray id rib k hrib hk

section Sample

/-- A filter that allows everything or nothing. -/
def sampleEnv : FilterEnv Bool where
  filter allow _ _ state := (allow, state)
  noRules := false
  deny _ _ _ _ := rfl

def sampleKey (pathId : ℕ) : Key := ⟨⟨.inet, 10 * 2 ^ 24, 8⟩, 2, pathId⟩

/-- From rules that deny everything to rules that allow everything. -/
def sampleReload : List (InEvent Bool) :=
  [.reconfConf, .reconfRib ribLocStart true, .reloadDone false (fun _ => true) false 0,
    .softDumpR 1 fun _ => 0]

theorem locrib_filtered_sample :
    ∃ (s : RdeIn Bool) (rib : InRib Bool) (p : InPrefix),
      Run (inStep sampleEnv) SoftOk (RdeIn.init sampleEnv)
        ([.peerUp 2, .update (sampleKey 0) 0 {}] ++ sampleReload) s ∧
      s.ribs ribLocStart = some rib ∧ s.adjIn (sampleKey 0) = some p ∧
      FilteredBy sampleEnv s ribLocStart rib (sampleKey 0) p ∧ rib.table (sampleKey 0) ≠ none := by
  have hrun : ∃ s, Run (inStep sampleEnv) SoftOk (RdeIn.init sampleEnv)
      ([.peerUp 2, .update (sampleKey 0) 0 {}] ++ sampleReload) s ∧ s.soft = .idle ∧
      ∃ rib, s.ribs ribLocStart = some rib ∧ rib.table (sampleKey 0) ≠ none ∧
      ∃ p, s.adjIn (sampleKey 0) = some p ∧ p.overLimit = false := by
    refine
      ⟨_, Run.cons trivial rfl (Run.cons trivial rfl (Run.cons trivial rfl (Run.cons trivial rfl
      (Run.cons trivial rfl (Run.cons (Or.inl ?_) rfl (Run.nil _)))))), rfl, _, rfl, ?_,
        _, rfl, rfl⟩
    · rintro (_ | _ | id) rib h
      · cases h
      · cases h
        rfl
      · cases h
    · exact Option.some_ne_none _
  obtain ⟨s, hrun, hidle, rib, hrib, htable, p, hp, hlimit⟩ := hrun
  exact ⟨s, rib, p, hrun, hrib, hp,
    (locrib_filtered hrun hidle hrib (by decide)).1 p hp hlimit, htable⟩

/-- The second path of the neighbor exceeds the limit: the rules allow it, but the RIB does not
    have it. -/
theorem locrib_path_over_limit :
    ∃ (s : RdeIn Bool) (rib : InRib Bool) (p : InPrefix),
      Run (inStep sampleEnv) SoftOk (RdeIn.init sampleEnv)
        (sampleReload ++ [.peerUp 2, .maxPrefix 2 1, .update (sampleKey 0) 0 {},
          .update (sampleKey 1) 0 {}]) s ∧
      s.soft = .idle ∧ s.rpki = .idle ∧ s.softreconfig = 0 ∧ s.ribs ribLocStart = some rib ∧
      (sampleKey 1).peer ≠ peerself ∧ s.adjIn (sampleKey 1) = some p ∧
      (sampleEnv.filter rib.inRules (sampleKey 1).peer (sampleKey 1).pt p.state).1 = true ∧
      rib.table (sampleKey 1) = none := by
  refine ⟨_, _, _, Run.cons trivial rfl (Run.cons trivial rfl (Run.cons trivial rfl
    (Run.cons (Or.inl ?_) rfl (Run.cons trivial rfl (Run.cons trivial rfl (Run.cons trivial rfl
      (Run.cons trivial rfl (Run.nil _)))))))), rfl, rfl, rfl, rfl, by decide, rfl, rfl, rfl⟩
  rintro (_ | _ | id) rib h
  · cases h
  · cases h
    rfl
  · cases h

end Sample

end Bgpd.Rde.Softreconfig
