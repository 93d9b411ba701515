import Bgpd.Rde.DecideTie
import Bgpd.Rde.PendingRun
import Bgpd.Rde.Provenance
import Bgpd.Rde.Session

/-!
# Which Paths Can Tie

Which pairs of paths can be listed in one entry follows from how peers and path ids come about. A
path is found by its peer and its path id before another one is added, the peer of the local
networks uses the path id 0 only, and any other peer had a session over IPv4 or IPv6 when its
paths were added. So two listed paths can only tie if they are of two different peers with the
same address bytes, which are neighbours with one link-local address on two interfaces.

## Main results

- `Grows`: which paths an event can add
- `Listable`: the paths that can be listed in one entry
- `decides_iff_no_twins`: when every comparison of listed paths has a result
-/

namespace Bgpd.Rde

open Bgpd.Lib

variable {cfg : RdeConfig} {s s₁ s' : RdeState} {rib : ℕ} {pt : PtEntry} {q : PeerId} {a : PathArgs}
  {A : PeerId → ℕ → Prop}

/-! ## Paths that are added -/

/-- All paths were listed before, but for those that `A` allows. Sessions keep their address. -/
structure Grows (A : PeerId → ℕ → Prop) (s s' : RdeState) : Prop where
  paths : ∀ rib pt, AllPaths (fun p => p.ident ∈ idents (s.entry rib pt).prefixH ∨
    A p.peer p.pathId)
    (s'.entry rib pt).prefixH
  addr : ∀ q, (s'.peers q).remoteAddr = (s.peers q).remoteAddr

namespace Grows

theorem of_entry (hentry : s'.entry = s.entry)
    (haddr : ∀ q, (s'.peers q).remoteAddr = (s.peers q).remoteAddr) : Grows A s s' where
  paths rib pt p hp := by
    rw [hentry] at hp
    exact Or.inl (List.mem_map_of_mem hp)
  addr := haddr

theorem refl (s : RdeState) : Grows A s s := of_entry rfl fun _ => rfl

theorem trans (h : Grows A s s₁) (h' : Grows A s₁ s') : Grows A s s' where
  paths rib pt p hp := by
    rcases h'.paths rib pt p hp with hmem | hA
    · obtain ⟨x, hx, hident⟩ := List.mem_map.mp hmem
      have hpath := ident_path hident
      rcases h.paths rib pt x hx with hmem | hA
      · rw [hident] at hmem
        exact Or.inl hmem
      · rw [(Prod.mk.inj hpath).1, (Prod.mk.inj hpath).2] at hA
        exact Or.inr hA
    · exact Or.inr hA
  addr q := (h'.addr q).trans (h.addr q)

theorem foldl {α : Type*} {f : RdeState → α → RdeState} (hf : ∀ s a, Grows A s (f s a))
    (l : List α) (s : RdeState) : Grows A s (l.foldl f s) := by
  induction l generalizing s with
  | nil => exact refl s
  | cons a l ih => exact (hf s a).trans (ih _)

theorem setPeer {peer : RdePeer} (haddr : peer.remoteAddr = (s.peers q).remoteAddr) :
    Grows A s (s.setPeer q peer) := by
  refine of_entry rfl fun p => ?_
  rw [setPeer_peers]
  split_ifs with hp
  · rw [hp, haddr]
  · rfl

/-- A new list for an entry. -/
theorem setEntry {re : RibEntry}
    (hre : AllPaths (fun p => p.ident ∈ idents (s.entry rib pt).prefixH ∨ A p.peer p.pathId)
      re.prefixH) : Grows A s (s.setEntry rib pt re) := by
  refine ⟨fun r k => ?_, fun _ => rfl⟩
  rw [setEntry_entry]
  split_ifs with hk
  · rw [hk.1, hk.2]
    exact hre
  · exact fun p hp => Or.inl (List.mem_map_of_mem hp)

theorem applyEvaluation {ev : Evaluation}
    (hev : AllPaths (fun p => p.ident ∈ idents (s.entry rib pt).prefixH ∨ A p.peer p.pathId) ev.h) :
    Grows A s (s.applyEvaluation rib pt ev) := by
  have hset : Grows A s (s.setEntry rib pt ((s.entry rib pt).evaluated s.evalAll ev)) :=
    setEntry hev
  rcases applyEvaluation_eq (s := s) rib pt ev with ⟨heq, -⟩ | ⟨q, heq⟩
  · rw [heq]
    exact hset
  · rw [heq]
    exact hset.trans (setPeer rfl)

theorem listed (s : RdeState) (rib : ℕ) (pt : PtEntry) :
    AllPaths (fun p => p.ident ∈ idents (s.entry rib pt).prefixH ∨ A p.peer p.pathId)
      (s.entry rib pt).prefixH := fun _ hp => Or.inl (List.mem_map_of_mem hp)

/-- A call of `prefix_evaluate`. -/
theorem evaluate {new old : Option Prefix}
    (hnew : ∀ n ∈ new, n.ident ∈ idents (s.entry rib pt).prefixH ∨ A n.peer n.pathId) :
    Grows A s (s.evaluate cfg rib pt new old) := by
  unfold RdeState.evaluate
  split
  · next ev hev =>
    exact applyEvaluation (AllPaths.prefixEvaluate (fun _ _ => id) (listed s rib pt) hnew hev)
  · exact refl s

theorem addKey (s : RdeState) (pt : PtEntry) : Grows A s (s.addKey pt) := by
  unfold RdeState.addKey
  split_ifs
  · exact refl s
  · exact of_entry rfl fun _ => rfl

theorem prefixDestroy (s : RdeState) (rib : ℕ) (pt : PtEntry) (p : Prefix) :
    Grows A s (s.prefixDestroy cfg rib pt p) := evaluate fun _ hn => nomatch hn

/-- `prefix_update` adds the path of its arguments at most. -/
theorem prefixUpdate (hrun : s.prefixUpdate cfg a = .ok s') :
    Grows (fun q i => q = a.peer ∧ i = a.pathId) s s' := by
  unfold RdeState.prefixUpdate at hrun
  have hptr : Grows (fun q i => q = a.peer ∧ i = a.pathId) s { s with nextPtr := s.nextPtr + 1 } :=
    of_entry rfl fun _ => rfl
  cases hget : s.prefixGet a.rib a.peer a.pathId a.pt with
  -- a route that was not there
  | none =>
    rw [hget] at hrun
    obtain rfl := Except.ok.inj hrun
    refine (hptr.trans (addKey _ _)).trans (evaluate fun n hn => ?_)
    obtain rfl := Option.some.inj hn
    exact Or.inr ⟨rfl, rfl⟩
  | some p =>
    obtain ⟨-, hpeer, hpath⟩ := prefixGet_some hget
    rw [hget] at hrun
    dsimp only at hrun
    have htouch : Grows (fun q i => q = a.peer ∧ i = a.pathId) s
        (s.touch a.rib a.pt p.ptr a.now) := by
      refine setEntry fun x hx => ?_
      obtain ⟨y, hy, rfl⟩ := List.mem_map.mp hx
      refine Or.inl ?_
      by_cases hptr : y.ptr = p.ptr
      · rw [if_pos hptr]
        exact List.mem_map.mpr ⟨y, hy, rfl⟩
      · rw [if_neg hptr]
        exact List.mem_map_of_mem hy
    -- only the time changes, the flags change as well, or the attributes do
    split_ifs at hrun
    · obtain rfl := Except.ok.inj hrun
      exact htouch
    · obtain rfl := Except.ok.inj hrun
      refine (htouch.trans (prefixDestroy _ _ _ _)).trans (evaluate fun n hn => ?_)
      obtain rfl := Option.some.inj hn
      exact Or.inr ⟨hpeer, hpath⟩
    · obtain rfl := Except.ok.inj hrun
      refine hptr.trans (evaluate fun n hn => ?_)
      obtain rfl := Option.some.inj hn
      exact Or.inr ⟨rfl, rfl⟩

/-- `prefix_withdraw` -/
theorem prefixWithdraw (s : RdeState) (rib : ℕ) (peer : PeerId) (pathId : ℕ) (pt : PtEntry) :
    Grows A s (s.prefixWithdraw cfg rib peer pathId pt) := by
  unfold RdeState.prefixWithdraw
  split
  · exact prefixDestroy ..
  · exact refl s

/-- `prefix_evaluate_nexthop` -/
theorem evaluateNexthop (s : RdeState) (rib : ℕ) (pt : PtEntry) (p : Ptr)
    (state oldstate : NexthopState) :
    Grows A s (s.evaluateNexthop cfg rib pt p state oldstate) := by
  unfold RdeState.evaluateNexthop
  split
  · exact refl s
  · next p hfind =>
    refine applyEvaluation (AllPaths.evaluateNexthop (fun _ _ => id) (listed s rib pt) _ _ ?_)
    exact Or.inl (List.mem_map.mpr ⟨p, List.mem_of_find?_eq_some hfind, rfl⟩)

/-- `peer_flush` -/
theorem peerFlush (s : RdeState) (peer : PeerId) (aid : Option Aid) (staletime : Option ℕ) :
    Grows A s (s.peerFlush cfg peer aid staletime) := by
  have hpath : ∀ (s : RdeState) (pt : PtEntry) (p : Prefix),
      Grows A s (s.flushPath cfg peer pt p) := fun s pt p =>
    (foldl (fun s i => prefixWithdraw s i peer p.pathId pt) _ s).trans (prefixDestroy ..)
  have hentry : ∀ (s : RdeState) (pt : PtEntry), Grows A s (s.flushEntry cfg peer staletime pt) :=
    fun s pt => foldl (fun s p => hpath s pt p) _ s
  exact (foldl hentry _ s).trans (setPeer rfl)

/-! ### Sessions -/

/-- What only the queues and the Adj-RIB-Out see. -/
theorem of_sameRibs (h : SameRibs s s')
    (haddr : ∀ q, (s'.peers q).toOutParams = (s.peers q).toOutParams) : Grows A s s' :=
  of_entry h.entry fun q => congrArg (·.remoteAddr) (haddr q)

theorem stopOutput (s : RdeState) (q : PeerId) : Grows A s (s.stopOutput q) :=
  of_sameRibs (sameRibs_stopOutput s q) (RibKeeps.stopOutput (K := fun _ => True) s q).params

theorem peerDown (s : RdeState) (q : PeerId) : Grows A s (s.peerDown cfg q) := by
  have hdown : Grows A s (s.setDown q) := setPeer rfl
  exact (hdown.trans (stopOutput _ q)).trans (peerFlush _ q none none)

theorem peerStale (s : RdeState) (q : PeerId) (aid : Aid) (flushall : Bool) (now : ℕ) :
    Grows A s (s.peerStale cfg q aid flushall now) := by
  have hstaler : Grows A s (s.flushStaler cfg q aid) := by
    unfold RdeState.flushStaler
    split
    · exact peerFlush ..
    · exact refl s
  have hstale : ∀ s : RdeState, Grows A s (s.setStale q aid now) := fun s => setPeer rfl
  have hstop := (hstaler.trans (hstale _)).trans (stopOutput _ q)
  unfold RdeState.peerStale
  dsimp only
  split_ifs
  · exact hstop.trans (peerFlush ..)
  · exact hstop

theorem peerProcessUpdates (hrun : s.peerProcessUpdates cfg q = .ok s') : Grows A s s' := by
  have hgen : ∀ {qs : List PeerId} {s s' : RdeState} {rib : ℕ} {k : PtEntry} {mode : EvalMode},
      s.generateAll cfg rib k mode qs = .ok s' →
        ∀ p, (s'.peers p).toOutParams = (s.peers p).toOutParams := by
    intro qs
    induction qs with
    | nil =>
      intro s s' rib k mode h p
      obtain rfl := Except.ok.inj h
      rfl
    | cons q qs ih =>
      intro s s' rib k mode h p
      obtain ⟨s₁, hone, h⟩ := except_bind_ok h
      exact (ih h p).trans (peerGenerateUpdate_params hone p)
  have hpop : ∀ rest, Grows A s (s.popQueue q rest) := fun rest => setPeer rfl
  rcases peerProcessUpdates_cases hrun with
    rfl | ⟨rib, k, rest, -, ⟨-, rfl⟩ | ⟨mode, s₁, -, hall, rfl⟩⟩
  · exact refl _
  · exact hpop rest
  · have hgenerated := (hpop rest).trans (of_sameRibs (sameRibs_generateAll hall) (hgen hall))
    exact (hgenerated.trans (of_sameRibs (sameRibs_setAdjout ..) fun _ => rfl)).trans
      (setEntry (listed (s₁.collect k) rib k))

theorem dumpUpcall (hrun : s.dumpUpcall cfg q rib pt = .ok s') : Grows A s s' := by
  refine of_sameRibs (sameRibs_dumpUpcall hrun) fun p => ?_
  rcases dumpUpcall_cases hrun with ⟨-, rfl⟩ | ⟨-, s₁, hgen, rfl⟩
  · rfl
  · exact peerGenerateUpdate_params hgen p

theorem blastUpcall_params (s : RdeState) (q : PeerId) (pt : PtEntry) (p : PeerId) :
    ((s.blastUpcall q pt).peers p).toOutParams = (s.peers p).toOutParams := by
  show (if p = q then _ else s.peers p).toOutParams = _
  split_ifs with hp
  · rw [hp]
  · rfl

theorem walk {ctx : RibContext} {l : List PtEntry} (hw : Walk cfg ctx l s s') : Grows A s s' := by
  induction hw with
  | nil s => exact refl s
  | skip _ _ ih => exact ih
  | visit _ hcall _ ih =>
    refine Grows.trans ?_ ih
    unfold RdeState.dumpCall at hcall
    split at hcall
    · exact dumpUpcall hcall
    · obtain rfl := Except.ok.inj hcall
      exact of_sameRibs (sameRibs_blastUpcall ..) (blastUpcall_params _ _ _)

/-- One round of a dump. -/
theorem ribDumpR {i n : ℕ} (hrun : s.ribDumpR cfg i n = .ok s') : Grows A s s' := by
  rcases ribDumpR_cases hrun with rfl | ⟨ctx, l₁, l₂, s₁, -, -, hwalk, hend⟩
  · exact refl _
  · have hdumps : ∀ dumps, Grows A s { s₁ with dumps := dumps } := fun dumps =>
      (walk hwalk).trans (of_entry rfl fun _ => rfl)
    rcases hend with ⟨k, rest, -, -, rfl⟩ | ⟨-, rfl⟩
    · exact hdumps _
    · exact (hdumps _).trans (setPeer rfl)

theorem startDumps {forceSync : Bool} {aids : List Aid}
    (hrun : s.startDumps cfg q forceSync aids = .ok s') : Grows A s s' := by
  refine of_sameRibs (sameRibs_startDumps hrun) fun p => ?_
  induction aids generalizing s with
  | nil =>
    obtain rfl := Except.ok.inj hrun
    rfl
  | cons aid aids ih =>
    rw [RdeState.startDumps] at hrun
    split_ifs at hrun
    · exact ih hrun
    · obtain ⟨s₁, hdump, hrun⟩ := except_bind_ok hrun
      exact (ih hrun).trans (peerDump_params hdump p)
    · exact ih (s := s.peerBlast q aid) hrun

theorem resetErr (s : RdeState) (q : PeerId) : Grows A s (s.resetErr cfg q) := by
  unfold RdeState.resetErr
  split_ifs
  · exact peerDown s q
  · exact refl s

end Grows

/-- A session that comes up adds no path; the peer has the address of the session. -/
theorem peerUp_grows {sup : SessionUp} (hrun : s.peerUp cfg q sup = .ok s') :
    ∃ s₁, Grows A s s₁ ∧ s'.entry = s₁.entry ∧ ∀ p,
      (s'.peers p).remoteAddr = if p = q then sup.remoteAddr else (s₁.peers p).remoteAddr := by
  obtain ⟨s₁, hdumps, rfl⟩ := peerUp_cases hrun
  refine ⟨s.resetErr cfg q, Grows.resetErr s q, (sameRibs_startDumps hdumps).entry, fun p => ?_⟩
  refine ((Grows.startDumps (A := A) hdumps).addr p).trans ?_
  rw [setPeer_peers]
  split_ifs <;> rfl

/-! ## The paths of an entry -/

/-- The address of a session over IPv4 or IPv6. -/
def BgpdAddr.IsIp (a : BgpdAddr) : Prop := a.aid = some .inet ∨ a.aid = some .inet6

theorem BgpdAddr.IsIp.aid_ne {a : BgpdAddr} (h : a.IsIp) : a.aid ≠ none := by
  rcases h with h | h <;> simp [h]

instance (a : BgpdAddr) : Decidable a.IsIp := inferInstanceAs (Decidable (_ ∨ _))

/-- **The paths that can be listed in one entry**: different peers, or one peer with different path
    ids; the local networks, or peers with a session over IPv4 or IPv6. -/
structure Listable (addr : PeerId → BgpdAddr) (h : List Prefix) : Prop where
  keys : KeysNodup h
  self : ∀ p ∈ h, p.peer = peerself → p.pathId = 0
  session : ∀ p ∈ h, p.peer ≠ peerself → (addr p.peer).IsIp

/-- What the callers of the RDE see to. The local networks have the path id 0, the paths of a
    peer come with a session, and sessions are TCP connections. Flow specifications are kept
    elsewhere. -/
def Event.admitted (s : RdeState) : Event → Prop
  | .update a => a.pt.aid.isFlowspec = false ∧
      if a.peer = peerself then a.pathId = 0 else (s.peers a.peer).remoteAddr.aid ≠ none
  | .withdraw _ _ _ pt => pt.aid.isFlowspec = false
  | .nexthop _ pt _ _ _ => pt.aid.isFlowspec = false
  | .up q sup => q ≠ peerself ∧ sup.remoteAddr.IsIp
  | _ => True

instance (s : RdeState) (e : Event) : Decidable (e.admitted s) :=
  match e with
  | .update _ => inferInstanceAs (Decidable (_ ∧ _))
  | .withdraw .. | .nexthop .. => inferInstanceAs (Decidable (_ = _))
  | .up .. => inferInstanceAs (Decidable (_ ∧ _))
  | .flush .. | .process _ | .dump .. | .down _ | .stale .. | .sendWithdraws .. | .sendUpdate .. =>
    isTrue trivial

/-- The invariant of the RIBs and the peers. -/
structure PathsListable (cfg : RdeConfig) (s : RdeState) : Prop where
  pending : PendingInv 0 (fun _ => false) cfg s
  self : ∀ rib pt, ∀ p ∈ (s.entry rib pt).prefixH, p.peer = peerself → p.pathId = 0
  session : ∀ rib pt, ∀ p ∈ (s.entry rib pt).prefixH, p.peer ≠ peerself →
    (s.peers p.peer).remoteAddr.aid ≠ none
  ip : ∀ q, (s.peers q).remoteAddr.aid ≠ none → (s.peers q).remoteAddr.IsIp

theorem PathsListable.listable (h : PathsListable cfg s) (rib : ℕ) (pt : PtEntry) :
    Listable (fun q => (s.peers q).remoteAddr) (s.entry rib pt).prefixH :=
  ⟨(h.pending.entry rib pt).keys, h.self rib pt, fun p hp hne => h.ip _ (h.session rib pt p hp hne)⟩

/-- A step that adds paths of the local networks with the path id 0 and of peers that had a
    session. Sessions keep their address, or they get one. -/
theorem PathsListable.grows (h : PathsListable cfg s)
    (hpaths : ∀ rib pt, AllPaths (fun p => p.ident ∈ idents (s.entry rib pt).prefixH ∨
      A p.peer p.pathId) (s'.entry rib pt).prefixH)
    (haddr : ∀ q, (s'.peers q).remoteAddr = (s.peers q).remoteAddr ∨ (s'.peers q).remoteAddr.IsIp)
    (hA : ∀ q i, A q i → if q = peerself then i = 0 else (s.peers q).remoteAddr.aid ≠ none)
    (hpending : PendingInv 0 (fun _ => false) cfg s') : PathsListable cfg s' := by
  refine ⟨hpending, fun rib pt p hp hself => ?_, fun rib pt p hp hne => ?_, fun q hq => ?_⟩
  · rcases hpaths rib pt p hp with hmem | hadd
    · obtain ⟨x, hx, hident⟩ := List.mem_map.mp hmem
      obtain ⟨hpeer, hpath⟩ := Prod.mk.inj (ident_path hident)
      rw [← hpath]
      exact h.self rib pt x hx (hpeer.trans hself)
    · have := hA _ _ hadd
      rwa [if_pos hself] at this
  · have hsession : (s.peers p.peer).remoteAddr.aid ≠ none := by
      rcases hpaths rib pt p hp with hmem | hadd
      · obtain ⟨x, hx, hident⟩ := List.mem_map.mp hmem
        obtain ⟨hpeer, -⟩ := Prod.mk.inj (ident_path hident)
        rw [← hpeer] at hne ⊢
        exact h.session rib pt x hx hne
      · have := hA _ _ hadd
        rwa [if_neg hne] at this
    rcases haddr p.peer with heq | hip
    · rwa [heq]
    · exact hip.aid_ne
  · rcases haddr q with heq | hip
    · rw [heq] at hq ⊢
      exact h.ip q hq
    · exact hip

/-- Every event keeps the invariant. -/
theorem PathsListable.step (h : PathsListable cfg s) {e : Event} (he : e.admitted s)
    (hstep : rdeStep cfg s e = some s') : PathsListable cfg s' := by
  -- the queues stay as the pending invariant says
  have hpending : PendingInv 0 (fun _ => false) cfg s' := by
    refine PendingInv.rdeEvent (σ := { cfg := cfg, rde := s }) h.pending ?_ hstep
    cases e <;> simp_all [PqState.allows, Event.target, Event.processed, Event.admitted]
  -- an event that adds no path keeps all keys
  have hkeep : Grows (fun _ _ => False) s s' → PathsListable cfg s' := fun hg =>
    h.grows (A := fun _ _ => False) hg.paths (fun q => Or.inl (hg.addr q))
      (fun _ _ hf => False.elim hf) hpending
  have hrun := rdeStep_eq hstep
  cases e with
  | update a =>
    -- the new path has the key of the update
    have hg := Grows.prefixUpdate hrun
    refine h.grows (A := fun q i => q = a.peer ∧ i = a.pathId) hg.paths
      (fun q => Or.inl (hg.addr q)) ?_ hpending
    rintro q i ⟨rfl, rfl⟩
    exact he.2
  | withdraw rib peer pathId pt =>
    obtain rfl := Except.ok.inj hrun
    exact hkeep (Grows.prefixWithdraw s rib peer pathId pt)
  | flush peer aid staletime =>
    obtain rfl := Except.ok.inj hrun
    exact hkeep (Grows.peerFlush s peer aid staletime)
  | nexthop rib pt p state oldstate =>
    obtain rfl := Except.ok.inj hrun
    exact hkeep (Grows.evaluateNexthop s rib pt p state oldstate)
  | process q => exact hkeep (Grows.peerProcessUpdates hrun)
  | dump i n => exact hkeep (Grows.ribDumpR hrun)
  | up q sup =>
    -- only the address of the neighbour that comes up may change
    obtain ⟨s₁, hg, hentry, haddr⟩ := peerUp_grows (A := fun _ _ => False) hrun
    refine h.grows (A := fun _ _ => False) ?_ (fun p => ?_) (fun _ _ hf => False.elim hf) hpending
    · rw [hentry]
      exact hg.paths
    · rw [haddr]
      split_ifs
      · exact Or.inr he.2
      · exact Or.inl (hg.addr p)
  | down q =>
    obtain rfl := Except.ok.inj hrun
    exact hkeep (Grows.peerDown s q)
  | stale q aid flushall now =>
    obtain rfl := Except.ok.inj hrun
    exact hkeep (Grows.peerStale s q aid flushall now)
  | sendWithdraws q aid n =>
    obtain rfl := Except.ok.inj hrun
    exact hkeep (.of_sameRibs (sameRibs_upDumpWithdraws s q aid n)
      (RibKeeps.upDumpWithdraws (K := fun _ => True) s q aid n).params)
  | sendUpdate q aid n =>
    obtain rfl := Except.ok.inj hrun
    exact hkeep (.of_sameRibs (sameRibs_upDumpUpdate s q aid n)
      (RibKeeps.upDumpUpdate (K := fun _ => True) s q aid n).params)

/-! ## Comparisons of listed paths -/

/-- The comparison has a result, and in the other order it has the opposite sign. -/
def Decides (c : DecideCtx) (x y : Prefix) : Prop :=
  (prefixCmp c (some x) (some y)).1 ≠ 0 ∧ (prefixEligible x → prefixEligible y →
    (prefixCmp c (some x) (some y)).1 * (prefixCmp c (some y) (some x)).1 < 0)

/-- Two eligible paths of different peers that agree in all steps. -/
structure Twins (c : DecideCtx) (x y : Prefix) : Prop where
  peer : x.peer ≠ y.peer
  left : prefixEligible x
  right : prefixEligible y
  tied : Tied c x y

variable {c : DecideCtx} {h : List Prefix}

/-- Of two listed paths only twins tie. -/
theorem Listable.twins {x y : Prefix} (hl : Listable (fun q => (c.peer q).remoteAddr) h)
    (hx : x ∈ h) (hy : y ∈ h) (hne : x.ptr ≠ y.ptr) (hxe : prefixEligible x)
    (hye : prefixEligible y) (ht : Tied c x y) : Twins c x y := by
  refine ⟨fun hpeer => hne ?_, hxe, hye, ht⟩
  have hpath : x.pathId = y.pathId := by
    by_cases hself : x.peer = peerself
    · rw [hl.self x hx hself, hl.self y hy (hpeer ▸ hself)]
    · exact (ht.addr (hl.session x hx hself)).2
  rw [List.inj_on_of_nodup_map hl.keys.paths hx hy (Prod.ext hpeer hpath)]

/-- The decision process has a result for a list exactly when no two of its paths are twins. -/
theorem Listable.decides_iff (hl : Listable (fun q => (c.peer q).remoteAddr) h) :
    (∀ x ∈ h, ∀ y ∈ h, x.ptr ≠ y.ptr → Decides c x y) ↔ ∀ x ∈ h, ∀ y ∈ h, ¬Twins c x y := by
  constructor
  · intro hd x hx y hy ht
    have hne : x.ptr ≠ y.ptr := fun hptr =>
      ht.peer (by rw [List.inj_on_of_nodup_map hl.keys.ptrs hx hy hptr])
    exact (hd x hx y hy hne).1 ((prefixCmp_eq_zero_iff ht.left ht.right).mpr ht.tied)
  · intro hno x hx y hy hne
    cases hye : prefixEligible y with
    | false =>
      rw [Decides, prefixCmp_ineligible_right x hye]
      exact ⟨by decide, fun _ hye' => absurd hye' (by simp [hye])⟩
    | true =>
      cases hxe : prefixEligible x with
      | false =>
        rw [Decides, prefixCmp_ineligible_left hxe hye]
        exact ⟨by decide, fun hxe' => absurd hxe' (by simp [hxe])⟩
      | true =>
        have htied : ¬Tied c x y := fun ht => hno x hx y hy (hl.twins hx hy hne hxe hye ht)
        exact ⟨fun h₀ => htied ((prefixCmp_eq_zero_iff hxe hye).mp h₀),
          fun _ _ => prefixCmp_opposite hxe hye htied⟩

/-- The RDE after its start: nothing is listed or queued, and no peer had a session. -/
structure RdeState.Fresh (s : RdeState) : Prop where
  entry : ∀ rib pt, s.entry rib pt = {}
  ribPq : ∀ q, (s.peers q).ribPq = []
  addr : ∀ q, (s.peers q).remoteAddr = {}

theorem RdeState.Fresh.listable (h : s.Fresh) : PathsListable cfg s := by
  have hempty : PqState.Empty { cfg := cfg, rde := s } := ⟨h.entry, h.ribPq, fun _ => rfl⟩
  have hlisted : PqInv 0 { cfg := cfg, rde := s } := hempty.inv
  refine ⟨hlisted.1, fun rib pt => ?_, fun rib pt => ?_, fun q hq => ?_⟩
  · rw [h.entry]
    exact List.forall_mem_nil _
  · rw [h.entry]
    exact List.forall_mem_nil _
  · rw [h.addr] at hq
    exact absurd rfl hq

/-- **When the decision process has a result.** In every state that the RDE reaches, every
    comparison of two paths of an entry has a result, with opposite signs in the two orders, if and
    only if no two paths of the entry are twins. The comparison may use other flags, ids and
    settings of peers than those of the state, as long as the addresses are those of the
    sessions. -/
theorem decides_iff_no_twins {s₀ : RdeState} (h₀ : s₀.Fresh) {es : List Event}
    (hrun : Run (rdeStep cfg) Event.admitted s₀ es s)
    (hc : ∀ q, (c.peer q).remoteAddr = (s.peers q).remoteAddr) (rib : ℕ) (pt : PtEntry) :
    (∀ x ∈ (s.entry rib pt).prefixH, ∀ y ∈ (s.entry rib pt).prefixH, x.ptr ≠ y.ptr →
      Decides c x y) ↔
    ∀ x ∈ (s.entry rib pt).prefixH, ∀ y ∈ (s.entry rib pt).prefixH, ¬Twins c x y := by
  have hi : PathsListable cfg s := hrun.invariant (P := PathsListable cfg)
    (fun _ _ _ hi hok hstep => hi.step hok hstep) h₀.listable
  have hl := hi.listable rib pt
  rw [← funext hc] at hl
  exact hl.decides_iff

/-! ## Two interfaces -/

/-- A session over the link-local address `fe80::1` on an interface. -/
def linkLocalSession (scopeId : ℕ) : SessionUp where
  remoteAddr := ⟨some .inet6, 0xfe80000000000000_0000000000000001, scopeId⟩
  remoteBgpid := 7
  capa := { mp := fun aid => aid = .inet }

def freshState : RdeState where
  peers q := { conf := { id := q, remoteAs := 65001, localAs := 65000 } }

/-- Both sessions come up, and both peers announce the same destination. -/
def twoInterfaces : List Event :=
  [.up 2 (linkLocalSession 1), .up 3 (linkLocalSession 2),
    .update { rib := 1, peer := 2, pathIdTx := 2, pt := samplePt },
    .update { rib := 1, peer := 3, pathIdTx := 4, pt := samplePt }]

theorem freshState_fresh : freshState.Fresh := ⟨fun _ _ => rfl, fun _ => rfl, fun _ => rfl⟩

/-- Two sessions that differ in nothing but the IPv4 address, and the same destination. -/
def twoAddresses : List Event :=
  [.up 2 { linkLocalSession 0 with remoteAddr := ⟨some .inet, 0xc0000201, 0⟩ },
    .up 3 { linkLocalSession 0 with remoteAddr := ⟨some .inet, 0xc0000202, 0⟩ },
    .update { rib := 1, peer := 2, pathIdTx := 2, pt := samplePt },
    .update { rib := 1, peer := 3, pathIdTx := 4, pt := samplePt }]

/-- Two eligible paths of two peers are listed, and the comparison has a result. -/
theorem decides_iff_no_twins_sample : ∃ s, Run (rdeStep sampleConfig) Event.admitted freshState
    twoAddresses s ∧
      (∃ x ∈ (s.entry 1 samplePt).prefixH, ∃ y ∈ (s.entry 1 samplePt).prefixH, x.ptr ≠ y.ptr ∧
        prefixEligible x ∧ prefixEligible y) ∧
      ∀ x ∈ (s.entry 1 samplePt).prefixH, ∀ y ∈ (s.entry 1 samplePt).prefixH, x.ptr ≠ y.ptr →
        Decides (s.decideCtx sampleConfig) x y := by
  obtain ⟨s, hrun, htwo, hcmp⟩ := exists_run (rdeStep sampleConfig) Event.admitted freshState
    twoAddresses (fun s => (∃ x ∈ (s.entry 1 samplePt).prefixH,
        ∃ y ∈ (s.entry 1 samplePt).prefixH, x.ptr ≠ y.ptr ∧ prefixEligible x ∧ prefixEligible y) ∧
      ∀ x ∈ (s.entry 1 samplePt).prefixH, ∀ y ∈ (s.entry 1 samplePt).prefixH, x.peer ≠ y.peer →
        (prefixCmp (s.decideCtx sampleConfig) (some x) (some y)).1 ≠ 0) (by decide +kernel)
  refine ⟨s, hrun, htwo,
    (decides_iff_no_twins freshState_fresh hrun (fun _ => rfl) 1 samplePt).mpr ?_⟩
  intro x hx y hy ht
  exact hcmp x hx y hy ht.peer ((prefixCmp_eq_zero_iff ht.left ht.right).mpr ht.tied)

/-- The two paths of one destination cannot be told apart. -/
theorem two_interfaces_tie : ∃ s, Run (rdeStep sampleConfig) Event.admitted freshState
    twoInterfaces s ∧ ∃ x ∈ (s.entry 1 samplePt).prefixH, ∃ y ∈ (s.entry 1 samplePt).prefixH,
      x.ptr ≠ y.ptr ∧ (s.peers x.peer).remoteAddr ≠ (s.peers y.peer).remoteAddr ∧
        prefixEligible x ∧ prefixEligible y ∧
          (prefixCmp (s.decideCtx sampleConfig) (some x) (some y)).1 = 0 :=
  exists_run (rdeStep sampleConfig) Event.admitted freshState twoInterfaces
    (fun s => ∃ x ∈ (s.entry 1 samplePt).prefixH, ∃ y ∈ (s.entry 1 samplePt).prefixH,
      x.ptr ≠ y.ptr ∧ (s.peers x.peer).remoteAddr ≠ (s.peers y.peer).remoteAddr ∧
        prefixEligible x ∧ prefixEligible y ∧
          (prefixCmp (s.decideCtx sampleConfig) (some x) (some y)).1 = 0) (by decide +kernel)

end Bgpd.Rde
