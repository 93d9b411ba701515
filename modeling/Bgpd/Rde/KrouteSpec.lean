import Bgpd.Lib.Run
import Bgpd.Rde.EvaluateSpec
import Bgpd.Rde.Kroute

/-!
# The FIB Mirrors the Best Paths

Both functions that change a list of paths report the best paths before and after to the FIB,
unless the best path is the same object with the same attributes. From that, the routes in
the table of a RIB are at every point those of the best paths.

## Main results

- `FibEvent.evaluation_spec`: what is reported to the FIB
- `fib_mirrors_best`: the table of a RIB with unicast entries
-/

namespace Bgpd.Rde

open Bgpd.Lib

/-! ## What is reported -/

/-- The list of a RIB entry, as far as the FIB is concerned. -/
structure FibListOk (pt : PtEntry) (h : List Prefix) : Prop where
  ptrs : (h.map (·.ptr)).Nodup
  first : EligibleFirst h
  ne : ∀ p ∈ h, p.pathIdTx ≠ 0
  dest : ∀ p ∈ h, p.pt = pt

/-- What the FIB is told about a change of `h`. -/
inductive Reported (flags : RibFlags) (h : List Prefix) (ev : Evaluation) : Prop
  /-- The best path changed. -/
  | changed (hk : ev.kroute = some (prefixBest flags ev.h, prefixBest flags h))
  /-- Nothing changed, but the best path is reported again. -/
  | again (hh : ev.h = h) (hk : ev.kroute = some (prefixBest flags h, none))
  /-- The best path is the same. -/
  | quiet (hk : ev.kroute = none)
      (hbest : (prefixBest flags ev.h).map Prefix.core = (prefixBest flags h).map Prefix.core)

variable {c : DecideCtx} {pt : PtEntry} {h h' h₁ : List Prefix} {flags : RibFlags}
  {new old : Option Prefix}

theorem FibListOk.nil (pt : PtEntry) : FibListOk pt [] where
  ptrs := List.nodup_nil
  first := List.Pairwise.nil
  ne := by simp
  dest := by simp

/-- The properties of single paths move with the cores. -/
theorem FibListOk.of_perm (hok : FibListOk pt h) {l : List Prefix}
    (hp : (coreList h').Perm (l ++ coreList h₁)) (hsub : ∀ x ∈ coreList h₁, x ∈ coreList h)
    (hl : ∀ x ∈ l, x.pathIdTx ≠ 0 ∧ x.pt = pt) (hnd : (h'.map (·.ptr)).Nodup)
    (hfirst : EligibleFirst h') : FibListOk pt h' := by
  have hall : ∀ x ∈ h', x.pathIdTx ≠ 0 ∧ x.pt = pt := by
    intro x hx
    rcases List.mem_append.mp (hp.mem_iff.mp (List.mem_map_of_mem hx)) with hx | hx
    · exact hl x.core hx
    · obtain ⟨y, hy, hcore⟩ := List.mem_map.mp (hsub _ hx)
      have hid : y.core.pathIdTx = x.core.pathIdTx := by rw [hcore]
      have hpt : y.core.pt = x.core.pt := by rw [hcore]
      exact ⟨fun h0 => hok.ne y hy (hid.trans h0), hpt.symm.trans (hok.dest y hy)⟩
  exact ⟨hnd, hfirst, fun x hx => (hall x hx).1, fun x hx => (hall x hx).2⟩

/-- The list after the old path was taken out. -/
theorem FibListOk.removeOld (hok : FibListOk pt h)
    (hold : ∀ o ∈ old, o.core ∈ coreList h) :
    FibListOk pt (removeOld c old h) ∧
      (coreList h).Perm ((old.map Prefix.core).toList ++ coreList (Rde.removeOld c old h)) := by
  cases old with
  | none => exact ⟨hok, List.Perm.refl _⟩
  | some o =>
    obtain ⟨X, Y, x, rfl, hcore⟩ := coreList_split (hold o rfl)
    have hptr : x.ptr = o.ptr := (congrArg Prefix.ptr hcore : x.core.ptr = o.core.ptr)
    have hp := prefixRemove_perm (c := c) hptr hok.ptrs
    have hsub : (X ++ Y).Sublist (X ++ x :: Y) := (List.sublist_cons_self ..).append_left _
    refine ⟨?_, ?_⟩
    · apply hok.of_perm (l := []) hp
      · intro y hy
        exact (hsub.map Prefix.core).subset hy
      · simp
      · exact nodup_of_coreList_perm hp (by simpa using hok.ptrs.sublist (hsub.map _))
      · exact prefixRemove_eligibleFirst hptr hok.ptrs hok.first
    · show (coreList (X ++ x :: Y)).Perm (o.core :: coreList (prefixRemove c o (X ++ x :: Y)))
      rw [coreList_append, coreList_cons, hcore]
      apply List.perm_middle.trans
      rw [List.perm_cons, ← coreList_append]
      exact hp.symm

/-- The list after the new path was put in. -/
theorem FibListOk.insertNew (hok : FibListOk pt h)
    (hnew : ∀ n ∈ new, n.ptr ∉ h.map (·.ptr) ∧ n.pt = pt ∧ n.pathIdTx ≠ 0) :
    FibListOk pt (insertNew c new h) ∧
      (coreList (Rde.insertNew c new h)).Perm ((new.map Prefix.core).toList ++ coreList h) := by
  cases new with
  | none => exact ⟨hok, List.Perm.refl _⟩
  | some n =>
    obtain ⟨hfresh, hdest, hne⟩ := hnew n rfl
    have hnd : ((n :: h).map (·.ptr)).Nodup := List.nodup_cons.mpr ⟨hfresh, hok.ptrs⟩
    have hp := prefixInsert_perm (c := c) hnd
    refine ⟨?_, hp⟩
    apply hok.of_perm (l := [n.core]) hp (fun x hx => hx)
    · intro x hx
      rw [List.mem_singleton.mp hx]
      exact ⟨hne, hdest⟩
    · rw [← coreList_cons] at hp
      exact nodup_of_coreList_perm hp (by simpa using hnd)
    · exact prefixInsert_eligibleFirst hnd hok.first

/-- Taking out a path and putting in another one. -/
theorem FibListOk.replace (hok : FibListOk pt h) (hold : ∀ o ∈ old, o.core ∈ coreList h)
    (hnew : ∀ n ∈ new, n.ptr ∉ (Rde.removeOld c old h).map (·.ptr) ∧ n.pt = pt ∧ n.pathIdTx ≠ 0) :
    FibListOk pt (Rde.insertNew c new (Rde.removeOld c old h)) ∧
      (coreList (Rde.insertNew c new (Rde.removeOld c old h))).Perm
        ((new.map Prefix.core).toList ++ coreList (Rde.removeOld c old h)) ∧
      (∀ x ∈ coreList (Rde.removeOld c old h), x ∈ coreList h) := by
  obtain ⟨hok₁, hperm⟩ := hok.removeOld (c := c) hold
  obtain ⟨hok', hperm'⟩ := hok₁.insertNew (c := c) hnew
  exact ⟨hok', hperm', fun x hx => hperm.mem_iff.mpr (List.mem_append_right _ hx)⟩

theorem mem_of_prefixBest {b : Prefix} (hb : prefixBest flags h = some b) : b ∈ h := by
  unfold prefixBest at hb
  split at hb
  · cases hb
  · exact List.mem_of_mem_head? (Option.filter_eq_some_iff.mp hb).1

/-- If the best paths before and after are one object, which is not the one that was put in,
    its attributes are the same. -/
theorem FibListOk.best_core (hok : FibListOk pt h) {X : List Prefix}
    (hperm' : (coreList h').Perm (X ++ coreList h₁)) (hsub : ∀ x ∈ coreList h₁, x ∈ coreList h)
    (hptr : (prefixBest flags h).map (·.ptr) = (prefixBest flags h').map (·.ptr))
    (hX : ∀ b ∈ prefixBest flags h', ∀ x ∈ X, x.ptr ≠ b.ptr) :
    (prefixBest flags h').map Prefix.core = (prefixBest flags h).map Prefix.core := by
  cases hb' : prefixBest flags h' with
  | none =>
    rw [hb', Option.map_none, Option.map_eq_none_iff] at hptr
    rw [hptr]
  | some b' =>
    rw [hb', Option.map_some, Option.map_eq_some_iff] at hptr
    obtain ⟨b, hb, hbptr⟩ := hptr
    rw [hb, Option.map_some, Option.map_some, Option.some.injEq]
    have hcore : b'.core ∈ coreList h := by
      have := hperm'.mem_iff.mp (List.mem_map_of_mem (mem_of_prefixBest hb'))
      rcases List.mem_append.mp this with hx | hx
      · exact absurd rfl (hX b' hb' b'.core hx)
      · exact hsub _ hx
    have hnd : ((coreList h).map (·.ptr)).Nodup := by simpa using hok.ptrs
    exact List.inj_on_of_nodup_map hnd hcore (List.mem_map_of_mem (mem_of_prefixBest hb)) hbptr.symm

/-- `prefix_evaluate` in an evaluated RIB. -/
theorem prefixEvaluate_reported (evaluateAll : Bool) (hev : flags.noevaluate = false)
    (hfib : flags.nofib = false) (hok : FibListOk pt h) (hsome : new.isSome ∨ old.isSome)
    (hold : ∀ o ∈ old, o.core ∈ coreList h)
    (hnew : ∀ n ∈ new, n.ptr ∉ h.map (·.ptr) ∧ n.pt = pt ∧ n.pathIdTx ≠ 0) :
    ∃ ev, prefixEvaluate c flags evaluateAll h new old = some ev ∧ FibListOk pt ev.h ∧
      Reported flags h ev := by
  obtain ⟨hok₁, hperm⟩ := hok.removeOld (c := c) hold
  have hnew' : ∀ n ∈ new,
      n.ptr ∉ (removeOld c old h).map (·.ptr) ∧ n.pt = pt ∧ n.pathIdTx ≠ 0 := by
    intro n hn
    refine ⟨fun hmem => ?_, (hnew n hn).2⟩
    obtain ⟨x, hx, hptr⟩ := List.mem_map.mp hmem
    have hcore := hperm.mem_iff.mpr (List.mem_append_right _ (List.mem_map_of_mem hx))
    obtain ⟨y, hy, hyx⟩ := List.mem_map.mp hcore
    have : y.core.ptr = x.core.ptr := by rw [hyx]
    exact (hnew n hn).1 (List.mem_map.mpr ⟨y, hy, this.trans hptr⟩)
  obtain ⟨hok', hperm', hsub⟩ := hok.replace (c := c) hold hnew'
  rw [prefixEvaluate_eq evaluateAll hev hsome rfl]
  refine ⟨_, rfl, by rwa [evaluationReport_h], ?_⟩
  generalize insertNew c new (removeOld c old h) = h' at hok' hperm'
  unfold evaluationReport
  split
  · next hchanged =>
    -- the best path has changed, and the kernel is told
    apply Reported.changed
    rw [hfib, if_neg Bool.false_ne_true]
  · next hsame =>
    have hbest : (prefixBest flags h').map Prefix.core = (prefixBest flags h).map Prefix.core := by
      have hptr := (Bool.or_eq_false_iff.mp (Bool.eq_false_iff.mpr hsame)).1
      have hptr := samePrefix_iff.mp (by simpa using hptr)
      apply hok.best_core hperm' hsub hptr
      -- the new path was not listed before
      intro b hb x hx heq
      obtain ⟨n, hn, rfl⟩ := Option.map_eq_some_iff.mp (Option.mem_toList.mp hx)
      rw [Option.mem_def.mp hb, Option.map_some, Option.map_eq_some_iff] at hptr
      obtain ⟨b₀, hb₀, hb₀ptr⟩ := hptr
      apply (hnew n hn).1
      exact List.mem_map.mpr ⟨b₀, mem_of_prefixBest hb₀, hb₀ptr.trans heq.symm⟩
    -- otherwise the best path is what it was
    split <;> exact Reported.quiet rfl hbest

/-- `prefix_evaluate_nexthop` in an evaluated RIB. -/
theorem prefixEvaluateNexthop_reported (evaluateAll : Bool) (hev : flags.noevaluate = false)
    (hfib : flags.nofib = false) (hok : FibListOk pt h) {p : Prefix} (hp : p ∈ h)
    (state oldstate : NexthopState) :
    FibListOk pt (prefixEvaluateNexthop c flags evaluateAll h p state oldstate).h ∧
      Reported flags h (prefixEvaluateNexthop c flags evaluateAll h p state oldstate) := by
  unfold prefixEvaluateNexthop
  rw [if_neg (by simp [hev])]
  by_cases hstate : oldstate = state
  -- the same state: the kernel is told again if it was the best path
  · rw [if_pos hstate]
    split
    · next hbest =>
      -- the path is the best one, not only an object with its address
      have hptr := samePrefix_iff.mp ((Bool.and_eq_true _ _).mp hbest).2
      obtain ⟨b, hb, hbptr⟩ := Option.map_eq_some_iff.mp hptr.symm
      obtain rfl : b = p := List.inj_on_of_nodup_map hok.ptrs (mem_of_prefixBest hb) hp hbptr
      exact ⟨hok, Reported.again rfl (by rw [hb])⟩
    · exact ⟨hok, Reported.quiet rfl rfl⟩
  rw [if_neg hstate]
  dsimp only
  set n : Prefix := { p with nhvalid := decide (state = .reach) } with hn
  have hold : ∀ o ∈ some p, o.core ∈ coreList h := by
    rintro o ⟨⟩
    exact List.mem_map_of_mem hp
  obtain ⟨hok₁, hperm⟩ := hok.removeOld (c := c) hold
  -- the object is not listed while it is taken out
  have hnew : ∀ x ∈ some n,
      x.ptr ∉ (removeOld c (some p) h).map (·.ptr) ∧ x.pt = pt ∧ x.pathIdTx ≠ 0 := by
    rintro x ⟨⟩
    refine ⟨fun hmem => ?_, hok.dest p hp, hok.ne p hp⟩
    have hnd := (hperm.map (·.ptr)).nodup_iff.mp (by simpa using hok.ptrs)
    rw [← coreList_ptr] at hmem
    exact (List.nodup_cons.mp hnd).1 hmem
  obtain ⟨hok', hperm', hsub⟩ := hok.replace (c := c) hold hnew
  have hins : insertNew c (some n) (removeOld c (some p) h) =
      prefixInsert c n none (prefixRemove c p h) := rfl
  rw [hins] at hok' hperm'
  by_cases hskip : (if ((some n).filter prefixEligible).isNone && prefixEligible p then
      p.pathIdTx else 0) = 0 ∧ ((some n).filter prefixEligible).isNone
  · -- the path was and still is ineligible
    rw [if_pos hskip]
    refine ⟨hok', Reported.quiet rfl ?_⟩
    obtain ⟨hid, hnone⟩ := hskip
    have hnel : prefixEligible n = false := by
      cases hel : prefixEligible n with
      | false => rfl
      | true => simp [hel] at hnone
    have hpel : prefixEligible p = false := by
      cases hel : prefixEligible p with
      | false => rfl
      | true =>
        rw [hnone, hel] at hid
        exact absurd hid (hok.ne p hp)
    have hptrs : ((n :: prefixRemove c p h).map (·.ptr)).Nodup :=
      List.nodup_cons.mpr ⟨(hnew n rfl).1, hok₁.ptrs⟩
    have heq : eligibles (prefixInsert c n none (prefixRemove c p h)) = eligibles h := by
      rw [prefixInsert_ineligible hnel hptrs hok₁.first]
      obtain ⟨X, Y, rfl⟩ := List.append_of_mem hp
      exact prefixRemove_ineligible rfl rfl hpel hok.ptrs hok.first
    rw [prefixBest_eq_head hev hok'.first, prefixBest_eq_head hev hok.first]
    show (eligibles _).head?.map _ = (eligibles _).head?.map _
    rw [heq]
  · rw [if_neg hskip]
    refine ⟨by rwa [evaluationReport_h], ?_⟩
    unfold evaluationReport
    split
    · apply Reported.changed
      rw [hfib, if_neg Bool.false_ne_true]
    · next hsame =>
      obtain ⟨hptr, hnotp⟩ := Bool.or_eq_false_iff.mp (Bool.eq_false_iff.mpr hsame)
      have hptr := samePrefix_iff.mp (by simpa using hptr)
      have hbest := hok.best_core hperm' hsub hptr fun b hb x hx heq => by
        obtain rfl := List.mem_singleton.mp hx
        have hyes : samePrefix (prefixBest flags (prefixInsert c n none (prefixRemove c p h)))
            (some p) = true := by
          rw [samePrefix_iff, Option.mem_def.mp hb]
          exact congrArg some heq.symm
        rw [hyes] at hnotp
        cases hnotp
      split <;> exact Reported.quiet rfl hbest

/-- What a call that meets its conditions does to the list, and what the FIB is told. -/
theorem FibEvent.evaluation_spec (hev : flags.noevaluate = false) (hfib : flags.nofib = false)
    {e : FibEvent} (hok : FibListOk e.pt h) (he : e.Ok h) :
    ∃ ev, e.evaluation flags h = some ev ∧ FibListOk e.pt ev.h ∧ Reported flags h ev := by
  cases e with
  | evaluate c all pt new old =>
    obtain ⟨hsome, hold, hnew⟩ := he
    exact prefixEvaluate_reported all hev hfib hok hsome hold hnew
  | nexthop c all pt p state oldstate =>
    exact ⟨_, rfl, prefixEvaluateNexthop_reported all hev hfib hok he state oldstate⟩

/-! ## Messages and tables -/

/-- Messages for other destinations. -/
theorem Fib.applyAll_other {fib : Fib} {msgs : List KrouteMsg} {rtable : ℕ} {pt : PtEntry}
    (h : ∀ m ∈ msgs, m.kf.pt ≠ pt) : fib.applyAll msgs rtable pt = fib rtable pt := by
  induction msgs generalizing fib with
  | nil => rfl
  | cons m msgs ih =>
    show (fib.apply m).applyAll msgs rtable pt = _
    rw [ih fun x hx => h x (List.mem_cons_of_mem _ hx), Fib.apply, if_neg]
    rintro ⟨-, rfl⟩
    exact h m (List.mem_cons_self ..) rfl

/-- All messages of a call are for the destination of the paths. -/
theorem rdeSendKroute_pt {k : KrouteCtx} {msgs : List KrouteMsg}
    (h : rdeSendKroute k new old = some msgs) (hnew : ∀ p ∈ new, p.pt = pt)
    (hold : ∀ p ∈ old, p.pt = pt) : ∀ m ∈ msgs, m.kf.pt = pt := by
  have hmsgs : ∀ type kf comm, kf.pt = pt → ∀ m ∈ krouteMsgs k type kf comm, m.kf.pt = pt := by
    intro type kf comm hkf m hm
    simp only [krouteMsgs] at hm
    generalize (if (kf.pt.aid = .vpn4 ∨ kf.pt.aid = .inet) ∧ kf.nexthop.aid ≠ some .inet then
      KrouteType.delete else type) = type' at hm
    split_ifs at hm
    · cases hm
    · obtain ⟨vpn, -, rfl⟩ := List.mem_map.mp hm
      exact hkf
    · rw [List.mem_singleton.mp hm]
      exact hkf
  unfold rdeSendKroute at h
  split_ifs at h
  · cases h
    simp
  · obtain ⟨p, hp, rfl⟩ := Option.map_eq_some_iff.mp h
    exact hmsgs _ _ _ (hold p hp)
  · obtain ⟨p, hp, h⟩ := Option.bind_eq_some_iff.mp h
    obtain ⟨kf, hkf, rfl⟩ := Option.map_eq_some_iff.mp h
    obtain ⟨nh, -, rfl⟩ := Option.map_eq_some_iff.mp hkf
    exact hmsgs _ _ _ (hnew p hp)

/-! ## Unicast entries -/

/-- The route that a table should have for a best path: none for a path that was announced by
    ourselves, and none for an IPv4 destination behind another nexthop. -/
def fibRoute (k : KrouteCtx) (best : Option Prefix) : Option KrouteFull :=
  best.bind fun p =>
    if p.announced ∨ p.pt.aid = .inet ∧ p.nexthop.bind (·.aid) ≠ some .inet then none
    else krouteFull k p

theorem fibRoute_core (k : KrouteCtx) (best : Option Prefix) :
    fibRoute k (best.map Prefix.core) = fibRoute k best := by
  cases best <;> rfl

theorem fibRoute_noFibPath {k : KrouteCtx} {best : Option Prefix} (h : noFibPath best = true) :
    fibRoute k best = none := by
  cases best with
  | none => rfl
  | some p => exact if_pos (Or.inl h)

/-- One message for the RIB's own table. -/
theorem applyAll_unicast {k : KrouteCtx} {fib : Fib} {type : KrouteType} (kf : KrouteFull)
    {comm : List Community} (haid : kf.pt.aid = .inet ∨ kf.pt.aid = .inet6) :
    fib.applyAll (krouteMsgs k type kf comm) k.rtableid kf.pt =
      if type = .delete ∨ kf.pt.aid = .inet ∧ kf.nexthop.aid ≠ some .inet then none
      else some kf := by
  have hvpn4 : kf.pt.aid ≠ .vpn4 := by rcases haid with h | h <;> simp [h]
  have hvpn6 : kf.pt.aid ≠ .vpn6 := by rcases haid with h | h <;> simp [h]
  unfold krouteMsgs Fib.applyAll
  simp only [hvpn4, hvpn6, false_or, or_self, if_false, List.foldl_cons, List.foldl_nil]
  unfold Fib.apply
  rw [if_pos ⟨rfl, rfl⟩]
  dsimp only
  cases type with
  | delete =>
    rw [ite_self, if_pos (Or.inl rfl)]
  | change =>
    by_cases hnh : kf.pt.aid = .inet ∧ kf.nexthop.aid ≠ some .inet
    · rw [if_pos hnh, if_pos (Or.inr hnh)]
    · rw [if_neg hnh, if_neg (by simpa using hnh)]

/-- After a call the table has the route for the new best path, if it had none or the one for
    the old best path before. -/
theorem rdeSendKroute_unicast {k : KrouteCtx} {fib : Fib} {msgs : List KrouteMsg}
    (haid : pt.aid = .inet ∨ pt.aid = .inet6) (h : rdeSendKroute k new old = some msgs)
    (hnew : ∀ p ∈ new, p.pt = pt) (hold : ∀ p ∈ old, p.pt = pt)
    (hfib : fib k.rtableid pt = fibRoute k old ∨ fib k.rtableid pt = fibRoute k new) :
    fib.applyAll msgs k.rtableid pt = fibRoute k new := by
  unfold rdeSendKroute at h
  split_ifs at h with hboth hdel
  · -- no message
    cases h
    obtain ⟨ho, hn⟩ := (Bool.and_eq_true _ _).mp hboth
    rw [fibRoute_noFibPath hn, fibRoute_noFibPath ho, or_self] at hfib
    rw [fibRoute_noFibPath hn]
    exact hfib
  · obtain ⟨p, hp, rfl⟩ := Option.map_eq_some_iff.mp h
    obtain rfl := hold p hp
    rw [fibRoute_noFibPath hdel]
    exact (applyAll_unicast _ haid).trans (if_pos (Or.inl rfl))
  · obtain ⟨p, hp, h⟩ := Option.bind_eq_some_iff.mp h
    obtain ⟨kf, hkf, rfl⟩ := Option.map_eq_some_iff.mp h
    obtain rfl := hnew p hp
    have hann : p.announced = false := by
      rw [hp] at hdel
      simpa [noFibPath] using hdel
    obtain ⟨nh, hnh, rfl⟩ := Option.map_eq_some_iff.mp hkf
    refine (applyAll_unicast ⟨p.pt, nh, _, _, _, _⟩ haid).trans ?_
    rw [hp]
    simp [fibRoute, hann, hnh, hkf]

/-- A step, taken apart. -/
theorem fibStep_eq_some {k : KrouteCtx} {s s' : FibState} {e : FibEvent}
    (h : fibStep k s e = some s') :
    ∃ ev, e.evaluation k.flags (s.rib e.pt) = some ev ∧ ∃ msgs, ev.messages k = some msgs ∧
      s' = { rib := Function.update s.rib e.pt ev.h, fib := s.fib.applyAll msgs } := by
  unfold fibStep at h
  obtain ⟨ev, hev, h⟩ := Option.bind_eq_some_iff.mp h
  obtain ⟨msgs, hmsgs, h⟩ := Option.bind_eq_some_iff.mp h
  exact ⟨ev, hev, msgs, hmsgs, (Option.some.inj h).symm⟩

theorem FibListOk.best_dest (hok : FibListOk pt h) : ∀ p ∈ prefixBest flags h, p.pt = pt :=
  fun p hp => hok.dest p (mem_of_prefixBest hp)

/-- What a call does to the lists and the tables: other entries are not touched, and for its
    own entry either the best path stays the same or `rde_send_kroute` is called with the new
    best path and the old one, or with the best path and `NULL`. -/
structure FibStepped (k : KrouteCtx) (s : FibState) (e : FibEvent) (s' : FibState) : Prop where
  list : ∀ pt, FibListOk pt (s'.rib pt)
  rib_other : ∀ pt ≠ e.pt, s'.rib pt = s.rib pt
  fib_other : ∀ pt ≠ e.pt, ∀ rtable, s'.fib rtable pt = s.fib rtable pt
  sent : (s'.fib = s.fib ∧ (prefixBest k.flags (s'.rib e.pt)).map Prefix.core =
      (prefixBest k.flags (s.rib e.pt)).map Prefix.core) ∨
    ∃ old msgs, e.krouteArgs k.flags (s.rib e.pt) = some (prefixBest k.flags (s'.rib e.pt), old) ∧
      rdeSendKroute k (prefixBest k.flags (s'.rib e.pt)) old = some msgs ∧
      s'.fib = s.fib.applyAll msgs ∧
      (old = prefixBest k.flags (s.rib e.pt) ∨
        old = none ∧ prefixBest k.flags (s'.rib e.pt) = prefixBest k.flags (s.rib e.pt))

/-- One evaluation sends the kernel the change of best path and nothing else. -/
theorem fibStep_stepped {k : KrouteCtx} (hev : k.flags.noevaluate = false)
    (hnofib : k.flags.nofib = false) {s s' : FibState} {e : FibEvent}
    (hlist : ∀ pt, FibListOk pt (s.rib pt)) (he : e.Ok (s.rib e.pt))
    (hs : fibStep k s e = some s') : FibStepped k s e s' := by
  obtain ⟨ev, hevaluation, hok', hrep⟩ := e.evaluation_spec hev hnofib (hlist e.pt) he
  obtain ⟨ev', hev', msgs, hmsgs, rfl⟩ := fibStep_eq_some hs
  obtain rfl : ev = ev' := Option.some.inj (hevaluation.symm.trans hev')
  have hargs : e.krouteArgs k.flags (s.rib e.pt) = ev.kroute := by
    rw [FibEvent.krouteArgs, hevaluation]
    rfl
  have hbest : ∀ p ∈ prefixBest k.flags (s.rib e.pt), p.pt = e.pt := (hlist e.pt).best_dest
  have hbest' : ∀ p ∈ prefixBest k.flags ev.h, p.pt = e.pt := hok'.best_dest
  -- all messages are for the entry
  have hpt : ∀ m ∈ msgs, m.kf.pt = e.pt := by
    unfold Evaluation.messages at hmsgs
    cases hrep with
    | changed hk =>
      rw [hk] at hmsgs
      exact rdeSendKroute_pt hmsgs hbest' hbest
    | again hh hk =>
      rw [hk] at hmsgs
      exact rdeSendKroute_pt hmsgs hbest (by simp)
    | quiet hk hsame =>
      rw [hk] at hmsgs
      cases hmsgs
      simp
  refine ⟨fun pt => ?_, fun pt hne => Function.update_of_ne hne _ _, fun pt hne rtable => ?_, ?_⟩
  · show FibListOk pt (Function.update s.rib e.pt ev.h pt)
    by_cases hne : pt = e.pt
    · subst hne
      rwa [Function.update_self]
    · rw [Function.update_of_ne hne]
      exact hlist pt
  · exact Fib.applyAll_other fun m hm heq => hne (heq.symm.trans (hpt m hm))
  · dsimp only
    rw [Function.update_self, hargs]
    unfold Evaluation.messages at hmsgs
    cases hrep with
    | changed hk =>
      rw [hk] at hmsgs ⊢
      exact Or.inr ⟨_, msgs, rfl, hmsgs, rfl, Or.inl rfl⟩
    | again hh hk =>
      rw [hk] at hmsgs ⊢
      rw [hh]
      exact Or.inr ⟨none, msgs, rfl, hmsgs, rfl, Or.inr ⟨rfl, rfl⟩⟩
    | quiet hk hsame =>
      rw [hk] at hmsgs
      cases hmsgs
      exact Or.inl ⟨rfl, hsame⟩

/-- The routes of the table are those of the best paths. -/
structure FibInv (k : KrouteCtx) (s : FibState) : Prop where
  list : ∀ pt, FibListOk pt (s.rib pt)
  route : ∀ pt, s.fib k.rtableid pt = fibRoute k (prefixBest k.flags (s.rib pt))

/-- A call for a unicast entry keeps the routes. -/
theorem FibInv.step {k : KrouteCtx} (hev : k.flags.noevaluate = false)
    (hnofib : k.flags.nofib = false) {s s' : FibState} {e : FibEvent} (hi : FibInv k s)
    (haid : e.pt.aid = .inet ∨ e.pt.aid = .inet6) (he : e.Ok (s.rib e.pt))
    (hs : fibStep k s e = some s') : FibInv k s' := by
  have hstep := fibStep_stepped hev hnofib hi.list he hs
  refine ⟨hstep.list, fun pt => ?_⟩
  by_cases hpt : pt = e.pt
  · subst hpt
    have hroute := hi.route e.pt
    have hbest' : ∀ p ∈ prefixBest k.flags (s'.rib e.pt), p.pt = e.pt := (hstep.list e.pt).best_dest
    rcases hstep.sent with ⟨hfib, hsame⟩ | ⟨old, msgs, -, hmsgs, hfib, rfl | ⟨rfl, hsame⟩⟩
    · rw [hfib, ← fibRoute_core, hsame, fibRoute_core]
      exact hroute
    · rw [hfib]
      exact rdeSendKroute_unicast haid hmsgs hbest' (hi.list e.pt).best_dest (Or.inl hroute)
    · rw [hfib]
      exact rdeSendKroute_unicast haid hmsgs hbest' (by simp) (Or.inr (by rw [hsame, hroute]))
  · rw [hstep.fib_other pt hpt, hstep.rib_other pt hpt]
    exact hi.route pt

/-- Without the decision process there are no best paths and no messages. -/
theorem fibStep_noevaluate {k : KrouteCtx} (hev : k.flags.noevaluate = true) {s s' : FibState}
    {e : FibEvent} (hs : fibStep k s e = some s') : s'.fib = s.fib := by
  have hkroute : ∀ ev, e.evaluation k.flags (s.rib e.pt) = some ev → ev.kroute = none := by
    intro ev h
    cases e with
    | evaluate c all pt new old =>
      unfold FibEvent.evaluation prefixEvaluate at h
      dsimp only at h
      rw [if_pos hev] at h
      split_ifs at h
      cases h
      rfl
    | nexthop c all pt p state oldstate =>
      unfold FibEvent.evaluation prefixEvaluateNexthop at h
      dsimp only at h
      rw [if_pos hev] at h
      cases h
      rfl
  obtain ⟨ev, h, msgs, hmsgs, rfl⟩ := fibStep_eq_some hs
  rw [Evaluation.messages, hkroute ev h] at hmsgs
  cases hmsgs
  rfl

/-- A call for a unicast entry, as its callers make it. -/
def UnicastOk (s : FibState) (e : FibEvent) : Prop :=
  (e.pt.aid = .inet ∨ e.pt.aid = .inet6) ∧ e.Ok (s.rib e.pt)

instance (s : FibState) (e : FibEvent) : Decidable (UnicastOk s e) :=
  inferInstanceAs (Decidable (_ ∧ _))

/-- **The FIB mirrors the best paths.** In every state that calls of `prefix_evaluate` and
    `prefix_evaluate_nexthop` for unicast entries lead to, the table of the RIB has exactly
    the routes of the best paths. -/
theorem fib_mirrors_best {k : KrouteCtx} (hfib : k.flags.nofib = false) {es : List FibEvent}
    {s : FibState} (h : Run (fibStep k) UnicastOk {} es s) (pt : PtEntry) :
    s.fib k.rtableid pt = fibRoute k (prefixBest k.flags (s.rib pt)) := by
  cases hev : k.flags.noevaluate with
  | true =>
    have hstep : ∀ s e s', (s.fib = fun _ _ => none) → UnicastOk s e →
        fibStep k s e = some s' → s'.fib = fun _ _ => none :=
      fun s e s' hi _ hs => (fibStep_noevaluate hev hs).trans hi
    have hempty : s.fib = fun _ _ => none := h.invariant hstep rfl
    rw [hempty, prefixBest, if_pos hev]
    rfl
  | false =>
    have hinv : FibInv k s := by
      apply h.invariant (fun s e s' hi he hs => hi.step hev hfib he.1 he.2 hs)
      refine ⟨FibListOk.nil, fun pt => ?_⟩
      show none = fibRoute k (prefixBest k.flags [])
      rw [prefixBest, if_neg (by simp [hev])]
      rfl
    exact hinv.route pt

/-- A path for 10.0.0.0/8 from peer `i`, with a local preference. -/
def kroutePath (i lpref : ℕ) : Prefix :=
  { ptr := i, pt := ⟨.inet, 10, 8⟩, peer := i, pathIdTx := 2 * i,
    aspath := some { lpref := lpref }, nexthop := some { aid := some .inet, addr := i } }

/-- Two paths, and then the nexthop of the better one is lost. -/
theorem fib_mirrors_best_sample :
    ∃ s : FibState, (s.fib 0 ⟨.inet, 10, 8⟩).map (·.nexthop.addr) = some 2 ∧
      s.fib 0 ⟨.inet, 10, 8⟩ = fibRoute {} (prefixBest {} (s.rib ⟨.inet, 10, 8⟩)) := by
  obtain ⟨s, hrun, hs⟩ := exists_run (fibStep {}) UnicastOk {}
    [.evaluate circleCtx false ⟨.inet, 10, 8⟩ (some (kroutePath 2 100)) none,
      .evaluate circleCtx false ⟨.inet, 10, 8⟩ (some (kroutePath 3 200)) none,
      .nexthop circleCtx false ⟨.inet, 10, 8⟩ { kroutePath 3 200 with dmetric := dmetricBest }
        .unreach .reach]
    (fun s => (s.fib 0 ⟨.inet, 10, 8⟩).map (·.nexthop.addr) = some 2) (by decide)
  exact ⟨s, hs, fib_mirrors_best (k := {}) rfl hrun _⟩

end Bgpd.Rde
