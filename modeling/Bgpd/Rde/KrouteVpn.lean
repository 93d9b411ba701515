import Bgpd.Rde.KrouteSpec

/-!
# Routes of VPNs

The routes of a VPN entry go to the tables of the VPNs that import the path. `rde_send_kroute`
chooses these VPNs by the communities of the path that the message is about: of the new path
if the best path is replaced by another one, so that VPNs that import only the old path are
not told. The tables are right as long as this does not happen: in every run in which all
VPNs that hold the old path also import the new one.

## Main results

- `vpn_fib_imports`: what the tables of the VPNs hold
- `vpn_fib_left_behind`: a route that is left behind
-/

namespace Bgpd.Rde

open Bgpd.Lib

variable {k : KrouteCtx} {pt : PtEntry} {new old : Option Prefix} {r : ℕ}

/-- A VPN with the table imports the path. -/
def Imports (k : KrouteCtx) (r : ℕ) (p : Prefix) : Prop :=
  ∃ vpn ∈ k.l3vpns, rdeL3vpnImport p.communities vpn = true ∧ vpn.rtableid = r

/-- The FIB can handle the path: it was not announced by ourselves, and a VPNv4 route has an
    IPv4 nexthop. -/
def FibUsable (p : Prefix) : Prop :=
  p.announced = false ∧ (p.pt.aid = .vpn4 → p.nexthop.bind (·.aid) = some .inet)

/-- The table should hold a route for the best path. -/
def VpnRoute (k : KrouteCtx) (r : ℕ) (best : Option Prefix) : Prop :=
  ∃ p ∈ best, FibUsable p ∧ Imports k r p

instance (k : KrouteCtx) (r : ℕ) (p : Prefix) : Decidable (Imports k r p) :=
  inferInstanceAs (Decidable (∃ vpn ∈ k.l3vpns, _ ∧ _))

instance (p : Prefix) : Decidable (FibUsable p) := inferInstanceAs (Decidable (_ ∧ _))

instance (k : KrouteCtx) (r : ℕ) (best : Option Prefix) : Decidable (VpnRoute k r best) :=
  inferInstanceAs (Decidable (∃ p ∈ best, _ ∧ _))

theorem vpnRoute_core (best : Option Prefix) :
    VpnRoute k r (best.map Prefix.core) ↔ VpnRoute k r best := by
  cases best with
  | none => exact Iff.rfl
  | some p =>
    constructor
    · rintro ⟨_, ⟨⟩, h⟩
      exact ⟨p, rfl, h⟩
    · rintro ⟨_, ⟨⟩, h⟩
      exact ⟨p.core, rfl, h⟩

theorem vpnRoute_noFibPath {best : Option Prefix} (h : noFibPath best = true) :
    ¬VpnRoute k r best := by
  rintro ⟨p, rfl, ⟨hann, -⟩, -⟩
  rw [show noFibPath (some p) = p.announced from rfl, hann] at h
  cases h

/-- The messages of one call, all with the same type, for the tables of some VPNs. -/
theorem applyAll_vpns {fib : Fib} {type : KrouteType} {vpns : List L3vpn} (kf : L3vpn → KrouteFull)
    (hkf : ∀ vpn, (kf vpn).pt = pt) :
    (fib.applyAll (vpns.map fun vpn => ⟨type, vpn.rtableid, kf vpn⟩) r pt).isSome = true ↔
      if ∃ vpn ∈ vpns, vpn.rtableid = r then type = .change else (fib r pt).isSome = true := by
  induction vpns generalizing fib with
  | nil => simp [Fib.applyAll]
  | cons vpn vpns ih =>
    have hstep : fib.applyAll ((vpn :: vpns).map fun vpn => ⟨type, vpn.rtableid, kf vpn⟩) =
        (fib.apply ⟨type, vpn.rtableid, kf vpn⟩).applyAll
          (vpns.map fun vpn => ⟨type, vpn.rtableid, kf vpn⟩) := rfl
    rw [hstep, ih]
    by_cases hlater : ∃ v ∈ vpns, v.rtableid = r
    · have hall : ∃ v ∈ vpn :: vpns, v.rtableid = r := by
        obtain ⟨v, hv, hr⟩ := hlater
        exact ⟨v, List.mem_cons_of_mem _ hv, hr⟩
      rw [if_pos hlater, if_pos hall]
    rw [if_neg hlater]
    unfold Fib.apply
    by_cases hr : vpn.rtableid = r
    · have hhere : ∃ v ∈ vpn :: vpns, v.rtableid = r := ⟨vpn, List.mem_cons_self .., hr⟩
      rw [if_pos hhere, if_pos (And.intro hr.symm (hkf vpn).symm)]
      cases type <;> simp
    · have hno : ¬∃ v ∈ vpn :: vpns, v.rtableid = r := by
        rintro ⟨v, hv, hvr⟩
        rcases List.mem_cons.mp hv with rfl | hv
        · exact hr hvr
        · exact hlater ⟨v, hv, hvr⟩
      rw [if_neg hno, if_neg fun h => hr h.1.symm]

/-- The messages about a path of a VPN entry. -/
theorem applyAll_krouteMsgs (hlocal : k.ribLocal = true) {fib : Fib} {type : KrouteType}
    (kf : KrouteFull) {p : Prefix} (haid : kf.pt.aid = .vpn4 ∨ kf.pt.aid = .vpn6) :
    (fib.applyAll (krouteMsgs k type kf p.communities) r kf.pt).isSome = true ↔
      if Imports k r p then
        type = .change ∧ (kf.pt.aid = .vpn4 → kf.nexthop.aid = some .inet)
      else (fib r kf.pt).isSome = true := by
  have hinet : kf.pt.aid ≠ .inet := by rcases haid with h | h <;> simp [h]
  simp only [krouteMsgs, hinet, or_false, haid, if_true, hlocal, Bool.not_true, Bool.false_eq_true,
    if_false]
  apply (applyAll_vpns (fun vpn => { kf with ifindex := k.ifNametoindex vpn.ifmpe })
    fun _ => rfl).trans
  have himp : (∃ vpn ∈ k.l3vpns.filter (rdeL3vpnImport p.communities), vpn.rtableid = r) ↔
      Imports k r p := by
    simp only [List.mem_filter, and_assoc, Imports]
  by_cases h : Imports k r p
  · rw [if_pos (himp.mpr h), if_pos h]
    by_cases hnh : kf.pt.aid = .vpn4 ∧ kf.nexthop.aid ≠ some .inet
    · simp [hnh.1, hnh.2]
    · rw [if_neg hnh]
      constructor
      · exact fun ht => ⟨ht, fun h4 => by_contra fun hno => hnh ⟨h4, hno⟩⟩
      · exact fun ht => ht.1
  · rw [if_neg (fun hx => h (himp.mp hx)), if_neg h]

/-! ## One call -/

/-- Every table that holds the old path is one that imports the new path, if there is one and
    it goes into the FIB. -/
def KeepsTables (k : KrouteCtx) (new old : Option Prefix) : Prop :=
  ∀ b ∈ new, b.announced = false → ∀ a ∈ old, FibUsable a →
    ∀ vpn ∈ k.l3vpns, rdeL3vpnImport a.communities vpn = true → Imports k vpn.rtableid b

instance (k : KrouteCtx) (new old : Option Prefix) : Decidable (KeepsTables k new old) :=
  inferInstanceAs (Decidable (∀ b ∈ new, _ → ∀ a ∈ old, _))

/-- After the messages a VPN table holds the prefix exactly if it imports the new path. -/
theorem rdeSendKroute_vpn (hlocal : k.ribLocal = true) {fib : Fib} {msgs : List KrouteMsg}
    (haid : pt.aid = .vpn4 ∨ pt.aid = .vpn6) (h : rdeSendKroute k new old = some msgs)
    (hnew : ∀ p ∈ new, p.pt = pt) (hold : ∀ p ∈ old, p.pt = pt) (hkeep : KeepsTables k new old)
    (hfib : (fib r pt).isSome = true → VpnRoute k r old ∨ VpnRoute k r new) :
    (fib.applyAll msgs r pt).isSome = true ↔ VpnRoute k r new := by
  unfold rdeSendKroute at h
  split_ifs at h with hboth hdel
  · -- no message
    cases h
    obtain ⟨ho, hn⟩ := (Bool.and_eq_true _ _).mp hboth
    refine iff_of_false (fun hsome => ?_) (vpnRoute_noFibPath hn)
    rcases hfib hsome with hr | hr
    · exact vpnRoute_noFibPath ho hr
    · exact vpnRoute_noFibPath hn hr
  · -- the old path is taken out of the tables that import it
    obtain ⟨p, hp, rfl⟩ := Option.map_eq_some_iff.mp h
    obtain rfl := hold p hp
    apply (applyAll_krouteMsgs hlocal _ haid).trans
    refine iff_of_false ?_ (vpnRoute_noFibPath hdel)
    split
    · rintro ⟨h, -⟩
      cases h
    · next himp =>
      intro hsome
      rcases hfib hsome with ⟨q, hq, -, hqimp⟩ | hr
      · obtain rfl : p = q := Option.some.inj (hp.symm.trans hq)
        exact himp hqimp
      · exact vpnRoute_noFibPath hdel hr
  · obtain ⟨p, rfl, h⟩ := Option.bind_eq_some_iff.mp h
    obtain ⟨kf, hkf, rfl⟩ := Option.map_eq_some_iff.mp h
    obtain ⟨nh, hnh, rfl⟩ := Option.map_eq_some_iff.mp hkf
    obtain rfl := hnew p rfl
    have hann : p.announced = false := by simpa [noFibPath] using hdel
    apply (applyAll_krouteMsgs hlocal ⟨p.pt, nh, _, _, _, _⟩ haid).trans
    have husable : FibUsable p ↔ (p.pt.aid = .vpn4 → nh.aid = some .inet) := by
      unfold FibUsable
      rw [hnh]
      exact and_iff_right hann
    have hroute : VpnRoute k r (some p) ↔ FibUsable p ∧ Imports k r p := by
      simp [VpnRoute]
    rw [hroute, husable]
    split
    · next himp =>
      constructor
      · exact fun h => ⟨h.2, himp⟩
      · exact fun h => ⟨rfl, h.1⟩
    · next himp =>
      -- a table that does not import the new path did not hold the old one
      refine iff_of_false (fun hsome => ?_) fun h => himp h.2
      rcases hfib hsome with ⟨a, ha, hua, vpn, hvpn, hacc, rfl⟩ | hr
      · exact himp (hkeep p rfl hann a ha hua vpn hvpn hacc)
      · exact himp (hroute.mp hr).2

/-! ## Runs -/

/-- A call for a VPN entry, as its callers make it. -/
def VpnCallOk (s : FibState) (e : FibEvent) : Prop :=
  (e.pt.aid = .vpn4 ∨ e.pt.aid = .vpn6) ∧ e.Ok (s.rib e.pt)

instance (s : FibState) (e : FibEvent) : Decidable (VpnCallOk s e) :=
  inferInstanceAs (Decidable (_ ∧ _))

/-- The call passes two paths to `rde_send_kroute` of which the new one goes to all tables that
    hold the old one. -/
def VpnOk (k : KrouteCtx) (s : FibState) (e : FibEvent) : Prop :=
  VpnCallOk s e ∧ ∀ x ∈ e.krouteArgs k.flags (s.rib e.pt), KeepsTables k x.1 x.2

instance (k : KrouteCtx) (s : FibState) (e : FibEvent) : Decidable (VpnOk k s e) :=
  inferInstanceAs (Decidable (_ ∧ ∀ x ∈ _, _))

/-- The tables hold the best paths that are imported. -/
structure VpnInv (k : KrouteCtx) (s : FibState) : Prop where
  list : ∀ pt, FibListOk pt (s.rib pt)
  route : ∀ r pt, (s.fib r pt).isSome = true ↔ VpnRoute k r (prefixBest k.flags (s.rib pt))

/-- Every evaluation that the condition admits keeps the VPN tables exact. -/
theorem VpnInv.step (hev : k.flags.noevaluate = false) (hnofib : k.flags.nofib = false)
    (hlocal : k.ribLocal = true) {s s' : FibState} {e : FibEvent} (hi : VpnInv k s)
    (he : VpnOk k s e) (hs : fibStep k s e = some s') : VpnInv k s' := by
  obtain ⟨⟨haid, hcall⟩, hkeep⟩ := he
  have hstep := fibStep_stepped hev hnofib hi.list hcall hs
  refine ⟨hstep.list, fun r pt => ?_⟩
  by_cases hpt : pt = e.pt
  · subst hpt
    have hroute := hi.route r e.pt
    have hbest' : ∀ p ∈ prefixBest k.flags (s'.rib e.pt), p.pt = e.pt := (hstep.list e.pt).best_dest
    rcases hstep.sent with ⟨hfib, hsame⟩ | ⟨old, msgs, hargs, hmsgs, hfib, rfl | ⟨rfl, hsame⟩⟩
    · rw [hfib, ← vpnRoute_core, hsame, vpnRoute_core]
      exact hroute
    · rw [hfib]
      exact rdeSendKroute_vpn hlocal haid hmsgs hbest' (hi.list e.pt).best_dest (hkeep _ hargs)
        fun hsome => Or.inl (hroute.mp hsome)
    · rw [hfib]
      exact rdeSendKroute_vpn hlocal haid hmsgs hbest' (by simp) (hkeep _ hargs)
        fun hsome => Or.inr (by rw [hsame]; exact hroute.mp hsome)
  · rw [hstep.fib_other pt hpt, hstep.rib_other pt hpt]
    exact hi.route r pt

/-- In every run in which all tables that hold the old best path import the new one, each table
    holds exactly the best paths that its VPNs import. -/
theorem vpn_fib_imports (hnofib : k.flags.nofib = false) (hlocal : k.ribLocal = true)
    {es : List FibEvent} {s : FibState} (h : Run (fibStep k) (VpnOk k) {} es s) (r : ℕ)
    (pt : PtEntry) :
    (s.fib r pt).isSome = true ↔ VpnRoute k r (prefixBest k.flags (s.rib pt)) := by
  cases hev : k.flags.noevaluate with
  | true =>
    have hstep : ∀ s e s', (s.fib = fun _ _ => none) → VpnOk k s e →
        fibStep k s e = some s' → s'.fib = fun _ _ => none :=
      fun s e s' hi _ hs => (fibStep_noevaluate hev hs).trans hi
    have hempty : s.fib = fun _ _ => none := h.invariant hstep rfl
    rw [hempty, prefixBest, if_pos hev]
    simp [VpnRoute]
  | false =>
    have hinv : VpnInv k s := by
      apply h.invariant (fun s e s' hi he hs => hi.step hev hnofib hlocal he hs)
      refine ⟨FibListOk.nil, fun r pt => ?_⟩
      show (none : Option KrouteFull).isSome = true ↔ VpnRoute k r (prefixBest k.flags [])
      rw [prefixBest, if_neg (by simp [hev])]
      simp [VpnRoute]
    exact hinv.route r pt

/-- The route target `rt 64500:n`. -/
def routeTarget (n : ℕ) : Community := ⟨Community.typeExt, 64500, n, 0x0002⟩

/-- Two VPNs, with table `n` for the route target `rt 64500:n`. -/
def twoVpns : KrouteCtx where
  l3vpns := [⟨1, "mpe1", some [routeTarget 1]⟩, ⟨2, "mpe2", some [routeTarget 2]⟩]

/-- A VPNv4 path from peer `i` with route targets. -/
def vpnPath (i lpref : ℕ) (targets : List ℕ) : Prefix :=
  { ptr := i, pt := ⟨.vpn4, 10, 8⟩, peer := i, pathIdTx := 2 * i,
    aspath := some { lpref := lpref }, communities := targets.map routeTarget,
    nexthop := some { aid := some .inet, addr := i } }

/-- The best path is replaced by one with a further route target. -/
theorem vpn_fib_imports_sample :
    ∃ s, Run (fibStep twoVpns) (VpnOk twoVpns) {}
        [.evaluate circleCtx false ⟨.vpn4, 10, 8⟩ (some (vpnPath 2 100 [1])) none,
          .evaluate circleCtx false ⟨.vpn4, 10, 8⟩ (some (vpnPath 3 200 [1, 2])) none] s ∧
      ((s.fib 2 ⟨.vpn4, 10, 8⟩).isSome = true ↔
        VpnRoute twoVpns 2 (prefixBest {} (s.rib ⟨.vpn4, 10, 8⟩))) := by
  obtain ⟨s, hrun, -⟩ := exists_run (fibStep twoVpns) (VpnOk twoVpns) {}
    [.evaluate circleCtx false ⟨.vpn4, 10, 8⟩ (some (vpnPath 2 100 [1])) none,
      .evaluate circleCtx false ⟨.vpn4, 10, 8⟩ (some (vpnPath 3 200 [1, 2])) none]
    (fun _ => True) (by decide)
  exact ⟨s, hrun, vpn_fib_imports (k := twoVpns) rfl rfl hrun 2 _⟩

/-- The best path is replaced by one with another route target: the table of the first VPN
    keeps the route. -/
theorem vpn_fib_left_behind :
    ∃ s, Run (fibStep twoVpns) VpnCallOk {}
        [.evaluate circleCtx false ⟨.vpn4, 10, 8⟩ (some (vpnPath 2 100 [1])) none,
          .evaluate circleCtx false ⟨.vpn4, 10, 8⟩ (some (vpnPath 3 200 [2])) none] s ∧
      (s.fib 1 ⟨.vpn4, 10, 8⟩).isSome = true ∧
      ¬VpnRoute twoVpns 1 (prefixBest {} (s.rib ⟨.vpn4, 10, 8⟩)) :=
  exists_run (fibStep twoVpns) VpnCallOk {} _
    (fun s => (s.fib 1 ⟨.vpn4, 10, 8⟩).isSome = true ∧
      ¬VpnRoute twoVpns 1 (prefixBest {} (s.rib ⟨.vpn4, 10, 8⟩))) (by decide)

end Bgpd.Rde
