import Bgpd.Rde.Flush

/-!
# Path Ids over Sessions

The path ids for sending come from two number spaces. A peer has an even number of its own, which is
used for the paths it sends without add-path; a path that is received with add-path gets an odd
number. Which of them is used depends on the session that is up, while the path that is updated
may be a stale one of the session before. A session without add-path may find such a path with an
odd number, and `prefix_update` ends the program. As long as that does not happen the numbers agree
in all RIBs.

## Main results

- `TxInv`: where the numbers come from
- `Agreed`: the path to be updated is not from a session with add-path that is over
- `pathIds_consistent`: the numbers over all runs
-/

namespace Bgpd.Rde.Paths

open Bgpd.Lib

variable {ρ : Type} {env : Filter ρ} {s s₁ s' : State ρ} {i j : ℕ} {rib rib' : LocRib ρ}
  {q q' : PeerId} {pt : PtEntry} {re : List Path} {p : Path} {pathId : ℕ} {peer : Peer}

/-! ## The numbers -/

/-- Where the path ids for sending come from. -/
structure TxInv (s : State ρ) : Prop where
  /-- Peers have even numbers. -/
  even : ∀ q peer, s.peers q = some peer → peer.pathIdTx % 2 = 0
  /-- The numbers of the peers are unique. -/
  inj : ∀ q q' peer peer', s.peers q = some peer → s.peers q' = some peer' →
    peer.pathIdTx = peer'.pathIdTx → q = q'
  table : ∀ q, (s.peers q).isSome → q ∈ s.peertable
  /-- The paths with even numbers are those without a path id, and have the number of their
      peer. -/
  own : ∀ pt, ∀ p ∈ s.adjIn pt, p.pathIdTx % 2 = 0 →
    p.pathId = 0 ∧ ∀ peer, s.peers p.peer = some peer → p.pathIdTx = peer.pathIdTx
  distinct : ∀ pt, ∀ p ∈ s.adjIn pt, ∀ p' ∈ s.adjIn pt, p.pathIdTx = p'.pathIdTx → p.key = p'.key
  self : ∀ peer, s.peers peerself = some peer → ∀ aid, peer.addPathRecv aid = false
  selfOwn : ∀ pt, ∀ p ∈ s.adjIn pt, p.peer = peerself → p.pathIdTx % 2 = 0

/-- No number is new. -/
structure Quiet (s s' : State ρ) : Prop where
  peers : ∀ q, (s'.peers q).map (·.pathIdTx) = (s.peers q).map (·.pathIdTx)
  self : (s'.peers peerself).map (·.addPathRecv) = (s.peers peerself).map (·.addPathRecv)
  table : s'.peertable = s.peertable
  adjIn : ∀ pt, ∀ p ∈ s'.adjIn pt, Twin (s.adjIn pt) p

theorem Twin.refl (hp : p ∈ re) : Twin re p := ⟨p, hp, rfl, rfl⟩

theorem Quiet.refl (s : State ρ) : Quiet s s where
  peers _ := rfl
  self := rfl
  table := rfl
  adjIn _ _ hp := Twin.refl hp

theorem Quiet.trans (h : Quiet s s₁) (h' : Quiet s₁ s') : Quiet s s' where
  peers q := (h'.peers q).trans (h.peers q)
  self := h'.self.trans h.self
  table := h'.table.trans h.table
  adjIn pt p hp := by
    obtain ⟨x, hx, hkey, htx⟩ := h'.adjIn pt p hp
    obtain ⟨y, hy, hkey', htx'⟩ := h.adjIn pt x hx
    exact ⟨y, hy, hkey'.trans hkey, htx'.trans htx⟩

/-- The number of a peer is the one it had. -/
theorem Quiet.peer_eq (h : Quiet s s') (hq : s'.peers q = some peer) :
    ∃ peer₀, s.peers q = some peer₀ ∧ peer.pathIdTx = peer₀.pathIdTx := by
  have := h.peers q
  rw [hq, Option.map_some, eq_comm, Option.map_eq_some_iff] at this
  obtain ⟨peer₀, hpeer, heq⟩ := this
  exact ⟨peer₀, hpeer, heq.symm⟩

/-- A step that assigns no id keeps the ids apart. -/
theorem Quiet.txInv (h : Quiet s s') (hs : TxInv s) : TxInv s' where
  even q peer hq := by
    obtain ⟨peer₀, hpeer, heq⟩ := h.peer_eq hq
    rw [heq]
    exact hs.even q peer₀ hpeer
  inj q q' peer peer' hq hq' heq := by
    obtain ⟨peer₀, hpeer, htx⟩ := h.peer_eq hq
    obtain ⟨peer₀', hpeer', htx'⟩ := h.peer_eq hq'
    exact hs.inj q q' peer₀ peer₀' hpeer hpeer' (by rw [← htx, ← htx', heq])
  table q hq := by
    obtain ⟨peer, hpeer⟩ := Option.isSome_iff_exists.mp hq
    obtain ⟨peer₀, hpeer₀, -⟩ := h.peer_eq hpeer
    rw [h.table]
    exact hs.table q (by simp [hpeer₀])
  own pt p hp heven := by
    obtain ⟨x, hx, hkey, htx⟩ := h.adjIn pt p hp
    obtain ⟨hpeer, hid⟩ := Prod.mk.inj hkey
    obtain ⟨hzero, hown⟩ := hs.own pt x hx (by rw [htx, heven])
    refine ⟨hid.symm.trans hzero, fun peer hq => ?_⟩
    obtain ⟨peer₀, hpeer₀, heq⟩ := h.peer_eq hq
    rw [← htx, heq]
    exact hown peer₀ (by rw [hpeer, hpeer₀])
  distinct pt p hp p' hp' heq := by
    obtain ⟨x, hx, hkey, htx⟩ := h.adjIn pt p hp
    obtain ⟨x', hx', hkey', htx'⟩ := h.adjIn pt p' hp'
    rw [← hkey, ← hkey']
    exact hs.distinct pt x hx x' hx' (by rw [htx, htx', heq])
  self peer hq aid := by
    have := h.self
    rw [hq, Option.map_some, eq_comm, Option.map_eq_some_iff] at this
    obtain ⟨peer₀, hpeer, heq⟩ := this
    rw [← heq]
    exact hs.self peer₀ hpeer aid
  selfOwn pt p hp hself := by
    obtain ⟨x, hx, hkey, htx⟩ := h.adjIn pt p hp
    rw [← htx]
    exact hs.selfOwn pt x hx ((Prod.mk.inj hkey).1.trans hself)

theorem Removed.quiet {gone : PtEntry → PeerId × ℕ → Bool} (h : Removed gone s s') :
    Quiet s s' where
  peers q := by
    have := congrArg (Option.map (·.pathIdTx)) (h.peers q)
    rwa [Option.map_map, Option.map_map] at this
  self := by
    have := congrArg (Option.map (·.addPathRecv)) (h.peers peerself)
    rwa [Option.map_map, Option.map_map] at this
  table := h.table
  adjIn pt p hp := Twin.refl (h.mem_adjIn.mp hp).1

/-- A change of a peer that leaves its number alone. -/
theorem Quiet.modifyPeer {f : Peer → Peer} (hf : ∀ peer, (f peer).pathIdTx = peer.pathIdTx)
    (hself : q ≠ peerself ∨ ∀ peer, (f peer).addPathRecv = peer.addPathRecv) :
    Quiet s (s.modifyPeer q f) where
  peers p := by
    rw [modifyPeer_peers]
    split_ifs with hp
    · rw [Option.map_map, hp]
      exact congrArg (fun g => (s.peers q).map g) (funext hf)
    · rfl
  self := by
    rw [modifyPeer_peers]
    split_ifs with hp
    · rw [Option.map_map, hp]
      exact congrArg (fun g => (s.peers q).map g) (funext (hself.resolve_left (· hp.symm)))
    · rfl
  table := rfl
  adjIn _ _ hp := Twin.refl hp

theorem PathInv.flushStaler_quiet (h : PathInv s) (q : PeerId) (aid : Aid) :
    Quiet s (s.flushStaler q aid) := by
  unfold State.flushStaler
  cases (s.peers q).bind (·.staletime aid) with
  | none => exact Quiet.refl s
  | some t => exact (h.peerFlush q (some aid) (some t)).2.quiet

theorem PathInv.peerBeginRrefresh_quiet (h : PathInv s) (q : PeerId) (aid : Aid)
    (now later : ℕ) : Quiet s (s.peerBeginRrefresh q aid now later) := by
  apply (h.flushStaler_quiet q aid).trans
  have hmod : Quiet (s.flushStaler q aid) ((s.flushStaler q aid).modifyPeer q fun peer =>
      { peer with staletime := Function.update peer.staletime aid (some now) }) :=
    Quiet.modifyPeer (fun _ => rfl) (Or.inr fun _ => rfl)
  exact ⟨hmod.peers, hmod.self, hmod.table, hmod.adjIn⟩

theorem PathInv.peerStale_quiet (h : PathInv s) (q : PeerId) (aid : Aid) (flushall : Bool)
    (now later : ℕ) : Quiet s (s.peerStale q aid flushall now later) := by
  have hbegin := h.peerBeginRrefresh_quiet q aid now later
  have hdown := hbegin.trans (Quiet.modifyPeer (q := q) (f := fun peer : Peer =>
    { peer with state := .down }) (fun _ => rfl) (Or.inr fun _ => rfl))
  have hinv : PathInv ((s.peerBeginRrefresh q aid now later).modifyPeer q fun peer =>
      { peer with state := .down }) :=
    (h.peerBeginRrefresh q aid now later).1.modifyPeer fun _ _ => Or.inl rfl
  unfold State.peerStale
  dsimp only
  split_ifs
  · exact hdown.trans (hinv.peerFlush q (some aid) none).2.quiet
  · exact hdown

theorem PathInv.peerDown_quiet (h : PathInv s) (q : PeerId) : Quiet s (s.peerDown q) := by
  have hinv : PathInv (s.modifyPeer q fun peer => { peer with state := .down }) :=
    h.modifyPeer fun _ _ => Or.inl rfl
  have hdown : Quiet s (s.modifyPeer q fun peer => { peer with state := .down }) :=
    Quiet.modifyPeer (fun _ => rfl) (Or.inr fun _ => rfl)
  apply (hdown.trans (hinv.peerFlush q none none).2.quiet).trans
  exact Quiet.modifyPeer (fun _ => rfl) (Or.inr fun _ => rfl)

theorem PathInv.peerUp_quiet (h : PathInv s) (hq : q ≠ peerself) (addPathRecv : Aid → Bool) :
    Quiet s (s.peerUp q addPathRecv) := by
  unfold State.peerUp
  dsimp only
  split_ifs
  · exact (h.peerDown_quiet q).trans (Quiet.modifyPeer (fun _ => rfl) (Or.inl hq))
  · exact Quiet.modifyPeer (fun _ => rfl) (Or.inl hq)

/-- The loops over the Loc-RIBs do not change the Adj-RIB-In and the peers. -/
theorem PathInv.forRibsM_quiet (h : PathInv s) {f : ℕ → LocRib ρ → Except Fatal (LocRib ρ)}
    (hrun : s.forRibsM f = .ok s') : Quiet s s' := by
  obtain ⟨ribs', rfl, -⟩ := h.forRibsM_eq hrun
  exact ⟨fun _ => rfl, rfl, rfl, fun _ _ hp => Twin.refl hp⟩

theorem setVstate_quiet (vstate : Path → ℕ) (pt : PtEntry) :
    Quiet s (s.setAdjIn pt ((s.adjIn pt).map (State.setVstate vstate))) where
  peers _ := rfl
  self := rfl
  table := rfl
  adjIn k p hp := by
    rw [setAdjIn_adjIn] at hp
    split_ifs at hp with hk
    · obtain ⟨x, hx, rfl⟩ := List.mem_map.mp hp
      exact ⟨x, hk ▸ hx, rfl, rfl⟩
    · exact Twin.refl hp

/-! ## New numbers -/

/-- A path is stored in the Adj-RIB-In with a number that is its own. -/
theorem TxInv.updateAdjIn (ht : TxInv s) (h : PathInv s)
    (hown : p.pathIdTx % 2 = 0 →
      p.pathId = 0 ∧ ∀ peer, s.peers p.peer = some peer → p.pathIdTx = peer.pathIdTx)
    (hdistinct : ∀ x ∈ s.adjIn pt, x.pathIdTx = p.pathIdTx → x.key = p.key)
    (hself : p.peer = peerself → p.pathIdTx % 2 = 0) (hrun : s.updateAdjIn pt p = .ok s') :
    TxInv s' := by
  obtain ⟨-, re, hperm, rfl⟩ := updateAdjIn_ok (h.keyed pt) hrun
  -- the counter does not matter
  refine Quiet.txInv (s := (s.addKey pt).setAdjIn pt re)
    (Quiet.modifyPeer (fun _ => rfl) (Or.inr fun _ => rfl)) ?_
  have hmem : ∀ k, ∀ x ∈ ((s.addKey pt).setAdjIn pt re).adjIn k, k = pt ∧ x = p ∨
      x ∈ s.adjIn k := by
    -- the new path, or one that was there
    intro k x hx
    rw [setAdjIn_adjIn, addKey_adjIn] at hx
    split_ifs at hx with hk
    · rcases List.mem_cons.mp (hperm.mem_iff.mp hx) with hx | hx
      · exact Or.inl ⟨hk, hx⟩
      · exact Or.inr (hk ▸ (mem_without.mp hx).1)
    · exact Or.inr hx
  refine ⟨?_, ?_, ?_, ?_, ?_, ?_, ?_⟩
  · simpa using ht.even
  · simpa using ht.inj
  · have htable : ((s.addKey pt).setAdjIn pt re).peertable = s.peertable := by
      unfold State.addKey
      split_ifs <;> rfl
    simpa [htable] using ht.table
  · intro k x hx heven
    simp only [setAdjIn_peers, addKey_peers]
    rcases hmem k x hx with ⟨-, rfl⟩ | hx
    · exact hown heven
    · exact ht.own k x hx heven
  · intro k x hx x' hx' heq
    -- the new path has an id of its own
    rcases hmem k x hx with ⟨rfl, rfl⟩ | hold
    · rcases hmem k x' hx' with ⟨-, rfl⟩ | hx'
      · rfl
      · exact (hdistinct x' hx' heq.symm).symm
    · rcases hmem k x' hx' with ⟨rfl, rfl⟩ | hold'
      · exact hdistinct x hold heq
      · exact ht.distinct k x hold x' hold' heq
  · simpa using ht.self
  · intro k x hx hq
    rcases hmem k x hx with ⟨-, rfl⟩ | hx
    · exact hself hq
    · exact ht.selfOwn k x hx hq

theorem odd_or_one (r : ℕ) : (r ||| 1) % 2 = 1 := by
  have h : (r ||| 1).testBit 0 = true := by simp
  simpa only [Nat.testBit_zero, decide_eq_true_eq] using h

theorem drawPathid_some {random : List ℕ} {tx : ℕ} (h : State.drawPathid re random = some tx) :
    tx % 2 = 1 ∧ ∀ x ∈ re, x.pathIdTx ≠ tx := by
  unfold State.drawPathid at h
  refine ⟨?_, ?_⟩
  · obtain ⟨r, -, rfl⟩ := List.mem_map.mp (List.mem_of_find?_eq_some h)
    exact odd_or_one r
  · simpa [State.pathidConflict] using List.find?_some h

/-- What `pathid_assign` returns. -/
theorem TxInv.pathidAssign (ht : TxInv s) (h : PathInv s) (hq : s.peers q = some peer)
    (hid : peer.addPathRecv pt.aid = false → pathId = 0) {random : List ℕ} {tx : ℕ}
    (htx : s.pathidAssign peer q pathId pt random = some tx) :
    (tx % 2 = 0 → pathId = 0 ∧ tx = peer.pathIdTx) ∧
      ∀ x ∈ s.adjIn pt, x.pathIdTx = tx → x.key = (q, pathId) := by
  unfold State.pathidAssign at htx
  cases hap : peer.addPathRecv pt.aid with
  | false =>
    simp only [hap, Bool.not_false, if_true, Option.some.injEq] at htx
    subst htx
    refine ⟨fun _ => ⟨hid hap, rfl⟩, fun x hx heq => ?_⟩
    -- a path with the number of the peer is its path without a path id
    obtain ⟨hzero, hown⟩ := ht.own pt x hx (by rw [heq]; exact ht.even q peer hq)
    obtain ⟨peer', hpeer'⟩ := Option.isSome_iff_exists.mp (h.known pt x hx)
    have hsame : x.peer = q :=
      ht.inj x.peer q peer' peer hpeer' hq ((hown peer' hpeer').symm.trans heq)
    rw [hid hap]
    exact Prod.ext hsame hzero
  | true =>
    simp only [hap, Bool.not_true, Bool.false_eq_true, if_false] at htx
    cases hget : prefixBypeer (s.adjIn pt) q pathId with
    -- a path that is there keeps its number
    | some p =>
      simp only [hget, Option.some.injEq] at htx
      subst htx
      obtain ⟨hp, hkey⟩ := mem_of_prefixBypeer hget
      refine ⟨fun heven => ?_, fun x hx heq => ?_⟩
      · obtain ⟨hzero, hown⟩ := ht.own pt p hp heven
        obtain ⟨hpeer, hpid⟩ := Prod.mk.inj hkey
        exact ⟨hpid.symm.trans hzero, hown peer (by rw [hpeer, hq])⟩
      · exact (ht.distinct pt x hx p hp heq).trans hkey
    -- a new path draws an odd number that no path of the destination has
    | none =>
      simp only [hget] at htx
      obtain ⟨hodd, hnew⟩ := drawPathid_some htx
      exact ⟨fun heven => by omega, fun x hx heq => absurd heq (hnew x hx)⟩

/-! ## Updates -/

/-- The update is not for a path that a session with add-path has left behind: with a session
    without add-path, the path without a path id in the Adj-RIB-In has an even number. -/
def Agreed (s : State ρ) : Event ρ → Prop
  | .update q _ pt _ _ _ =>
    ∀ peer ∈ s.upPeer q pt, peer.addPathRecv pt.aid = false →
      ∀ p ∈ s.adjIn pt, p.peer = q ∧ p.pathId = 0 → p.pathIdTx % 2 = 0
  | _ => True

instance (s : State ρ) (e : Event ρ) : Decidable (Agreed s e) :=
  match e with
  | .update q _ pt _ _ _ => inferInstanceAs (Decidable (∀ peer ∈ s.upPeer q pt,
      peer.addPathRecv pt.aid = false →
        ∀ p ∈ s.adjIn pt, p.peer = q ∧ p.pathId = 0 → p.pathIdTx % 2 = 0))
  | .peerAdd .. | .up .. | .down .. | .stale .. | .flush .. | .beginRrefresh .. | .updateErr ..
  | .withdraw .. | .networkAdd .. | .networkDelete .. | .reload .. | .softreconfigIn ..
  | .rpkiSoftreload .. => isTrue trivial

theorem wirePathId_eq_zero (h : peer.addPathRecv pt.aid = false) :
    State.wirePathId peer pt pathId = 0 := by
  simp [State.wirePathId, h]

/-- The number that is assigned is the one the path has. -/
theorem TxInv.agree (ht : TxInv s) (h : PathInv s) (hq : s.peers q = some peer)
    (heven : peer.addPathRecv pt.aid = false →
      ∀ p ∈ s.adjIn pt, p.peer = q ∧ p.pathId = pathId → p.pathIdTx % 2 = 0)
    {random : List ℕ} {tx : ℕ} (htx : s.pathidAssign peer q pathId pt random = some tx) :
    ∀ x ∈ s.adjIn pt, x.key = (q, pathId) → x.pathIdTx = tx := by
  intro x hx hkey
  obtain ⟨hpeer, hid⟩ := Prod.mk.inj hkey
  unfold State.pathidAssign at htx
  cases hap : peer.addPathRecv pt.aid with
  | false =>
    simp only [hap, Bool.not_false, if_true, Option.some.injEq] at htx
    rw [← htx]
    exact (ht.own pt x hx (heven hap x hx ⟨hpeer, hid⟩)).2 peer (by rw [hpeer, hq])
  | true =>
    have hget : prefixBypeer (s.adjIn pt) q pathId = some x := by
      rw [← hpeer, ← hid]
      exact (h.keyed pt).prefixBypeer hx
    simp only [hap, Bool.not_true, Bool.false_eq_true, if_false, hget, Option.some.injEq] at htx
    exact htx

theorem updateAdjIn_of_agree (hk : Keyed (s.adjIn pt))
    (hagree : ∀ x ∈ s.adjIn pt, x.key = p.key → x.pathIdTx = p.pathIdTx) :
    ∃ s', s.updateAdjIn pt p = .ok s' := by
  obtain ⟨re, -, heq⟩ := prefixUpdate_of_agree hk hagree
  unfold State.updateAdjIn
  rw [heq]
  exact ⟨_, rfl⟩

/-- A loop over the Loc-RIBs for a path of the Adj-RIB-In does not fail. -/
theorem PathInv.forRibsM_of_agree (h : PathInv s) (htwin : Twin (s.adjIn pt) p)
    {f : ℕ → LocRib ρ → Except Fatal (LocRib ρ)}
    (hf : ∀ i rib, s.ribs i = some rib → (∀ x ∈ rib.table pt, x.key = p.key →
      x.pathIdTx = p.pathIdTx) → ∃ rib', f i rib = .ok rib') :
    ∃ s', s.forRibsM f = .ok s' :=
  foldlM_changeRibM_ok nodup_locIds fun i _ rib hrib => hf i rib hrib (h.agree htwin hrib)

theorem PathInv.refilterPath_ok (h : PathInv s) {f : ℕ → Bool} {now : ℕ}
    (htwin : Twin (s.adjIn pt) p) : ∃ s', s.refilterPath env pt f now p = .ok s' := by
  have htwin' : Twin (s.adjIn pt) { p with lastchange := now } := htwin
  refine h.forRibsM_of_agree htwin' fun i rib hrib hagree => ?_
  split_ifs
  · exact filterPath_of_agree (h.locKeyed i rib hrib pt) hagree
  · exact ⟨rib, rfl⟩

theorem PathInv.refilterPaths_ok (h : PathInv s) {f : ℕ → Bool} {now : ℕ} {l : List Path}
    (hl : ∀ p ∈ l, Twin (s.adjIn pt) p) :
    ∃ s', l.foldlM (fun s p => s.refilterPath env pt f now p) s = .ok s' ∧ Quiet s s' := by
  induction l generalizing s with
  | nil => exact ⟨s, rfl, Quiet.refl s⟩
  | cons p l ih =>
    have hok : ∃ s₁, s.refilterPath env pt f now p = .ok s₁ :=
      h.refilterPath_ok (hl p List.mem_cons_self)
    obtain ⟨s₁, hpath⟩ := hok
    obtain ⟨hinv, hadj, -⟩ := h.refilterPath (hl p List.mem_cons_self) hpath
    have hl' : ∀ x ∈ l, Twin (s₁.adjIn pt) x := by
      intro x hx
      rw [hadj]
      exact hl x (List.mem_cons_of_mem _ hx)
    obtain ⟨s', hrun, hquiet⟩ := ih hinv hl'
    refine ⟨s', ?_, (h.forRibsM_quiet hpath).trans hquiet⟩
    rw [List.foldlM_cons, hpath]
    exact hrun

/-- A visit of a walk of a reload. -/
theorem PathInv.revalidate_ok (h : PathInv s) (vstate : Path → ℕ) (f : ℕ → Bool) (now : ℕ)
    {todo : List Path} (htodo : todo ⊆ s.adjIn pt) :
    ∃ s', (s.setAdjIn pt ((s.adjIn pt).map (State.setVstate vstate))).refilter env pt f now
      (todo.map (State.setVstate vstate)) = .ok s' ∧ Quiet s s' := by
  obtain ⟨s', hrun, hquiet⟩ := (h.setVstate vstate pt).refilterPaths_ok
    (l := (todo.map (State.setVstate vstate)).filter fun p => !p.state.aspath.flags.announced)
    fun p hp => by
      obtain ⟨x, hx, rfl⟩ := List.mem_map.mp (List.mem_filter.mp hp).1
      refine ⟨State.setVstate vstate x, ?_, rfl, rfl⟩
      rw [setAdjIn_adjIn, if_pos rfl]
      exact List.mem_map_of_mem (htodo hx)
  exact ⟨s', hrun, (setVstate_quiet vstate pt).trans hquiet⟩

/-- The path with the number that is assigned is stored in the Adj-RIB-In. -/
theorem TxInv.store (ht : TxInv s) (h : PathInv s) (hq : s.peers q = some peer)
    (hself : q = peerself → peer.addPathRecv pt.aid = false)
    (hid : peer.addPathRecv pt.aid = false → pathId = 0)
    (heven : peer.addPathRecv pt.aid = false →
      ∀ p ∈ s.adjIn pt, p.peer = q ∧ p.pathId = pathId → p.pathIdTx % 2 = 0)
    {random : List ℕ} (htx : s.pathidAssign peer q pathId pt random = some p.pathIdTx)
    (hkey : p.key = (q, pathId)) :
    ∃ s', s.updateAdjIn pt p = .ok s' ∧ TxInv s' ∧ PathInv s' ∧ p ∈ s'.adjIn pt := by
  obtain ⟨rfl, rfl⟩ := Prod.mk.inj hkey
  obtain ⟨hown, hdistinct⟩ := ht.pathidAssign h hq hid htx
  obtain ⟨s', hadj⟩ := updateAdjIn_of_agree (h.keyed pt) (ht.agree h hq heven htx)
  obtain ⟨hinv, hmem, -⟩ := h.updateAdjIn (by simp [hq]) hadj
  refine ⟨s', hadj, ht.updateAdjIn h (fun hev => ?_) hdistinct (fun hs => ?_) hadj, hinv, hmem⟩
  · obtain ⟨hzero, heq⟩ := hown hev
    refine ⟨hzero, fun peer' hpeer' => ?_⟩
    obtain rfl : peer = peer' := Option.some.inj (hq.symm.trans hpeer')
    exact heq
  · have hap := hself hs
    simp only [State.pathidAssign, hap, Bool.not_false, if_true, Option.some.injEq] at htx
    rw [← htx]
    exact ht.even _ peer hq

/-- An update with a number that agrees. -/
theorem TxInv.rdeUpdateUpdate (ht : TxInv s) (h : PathInv s) (hq : s.peers q = some peer)
    (hself : q = peerself → peer.addPathRecv pt.aid = false)
    (hid : peer.addPathRecv pt.aid = false → pathId = 0)
    (heven : peer.addPathRecv pt.aid = false →
      ∀ p ∈ s.adjIn pt, p.peer = q ∧ p.pathId = pathId → p.pathIdTx % 2 = 0)
    (state : FilterState) (random : List ℕ) (now : ℕ) :
    ∃ s', s.rdeUpdateUpdate env q peer pathId pt state random now = .ok s' ∧ TxInv s' := by
  unfold State.rdeUpdateUpdate
  cases htx : s.pathidAssign peer q pathId pt random with
  | none => exact ⟨s, rfl, ht⟩
  | some tx =>
    obtain ⟨s₁, hadj, ht₁, hinv, hmem⟩ :=
      ht.store (p := ⟨q, pathId, tx, state, false, now⟩) h hq hself hid heven htx rfl
    simp only [hadj, bind, Except.bind]
    split_ifs
    · have herr : Quiet s₁ (s₁.rdeUpdateErr q) :=
        Quiet.modifyPeer (fun _ => rfl) (Or.inr fun _ => rfl)
      exact ⟨_, rfl, herr.txInv ht₁⟩
    · obtain ⟨s', hloop⟩ := hinv.forRibsM_of_agree
        (f := s₁.filterPath env pt ⟨q, pathId, tx, state, false, now⟩) (Twin.refl hmem)
        fun i rib hrib hagree => filterPath_of_agree (hinv.locKeyed i rib hrib pt) hagree
      exact ⟨s', hloop, (hinv.forRibsM_quiet hloop).txInv ht₁⟩

/-- The networks announced locally have the number of their peer. -/
theorem TxInv.networkAdd (ht : TxInv s) (h : PathInv s) (state : FilterState) (now : ℕ) :
    ∃ s', s.networkAdd pt state now = .ok s' ∧ TxInv s' := by
  unfold State.networkAdd
  cases hself : s.peers peerself with
  | none => exact ⟨s, rfl, ht⟩
  | some self =>
    dsimp only
    cases htx : s.pathidAssign self peerself 0 pt [] with
    | none => exact ⟨s, rfl, ht⟩
    | some tx =>
      obtain ⟨s₁, hadj, ht₁, hinv, hmem⟩ :=
        ht.store (p := ⟨peerself, 0, tx, state, false, now⟩) h hself
          (fun _ => ht.self self hself pt.aid) (fun _ => rfl)
          (fun _ p hp hkey => ht.selfOwn pt p hp hkey.1) htx rfl
      simp only [hadj, bind, Except.bind]
      obtain ⟨s', hloop⟩ := hinv.forRibsM_of_agree
        (f := fun _ rib => rib.update pt ⟨peerself, 0, tx, state, false, now⟩) (Twin.refl hmem)
        fun i rib hrib hagree => LocRib.update_of_agree (hinv.locKeyed i rib hrib pt) hagree
      exact ⟨s', hloop, (hinv.forRibsM_quiet hloop).txInv ht₁⟩

/-- A new peer has a new number. -/
theorem TxInv.peerAdd (ht : TxInv s) (h : PathInv s) (q : PeerId) (maxPrefix : ℕ)
    (random : List ℕ) : TxInv (s.peerAdd q maxPrefix random) := by
  unfold State.peerAdd
  cases hq : s.peers q with
  | some peer =>
    have hquiet : Quiet s (s.modifyPeer q fun peer => { peer with maxPrefix := maxPrefix }) :=
      Quiet.modifyPeer (fun _ => rfl) (Or.inr fun _ => rfl)
    exact hquiet.txInv ht
  | none =>
    cases htx : s.drawPeerPathid random with
    | none => exact ht
    | some tx =>
      unfold State.drawPeerPathid at htx
      -- a number of a neighbour is even, and no other neighbour has it
      have heven : tx % 2 = 0 := by
        obtain ⟨r, -, rfl⟩ := List.mem_map.mp (List.mem_of_find?_eq_some htx)
        omega
      have hnew : ∀ p peer, s.peers p = some peer → peer.pathIdTx ≠ tx := by
        have hfound := List.find?_some htx
        simp only [decide_eq_true_eq, List.all_eq_true] at hfound
        intro p peer hp
        have := hfound.2 p (ht.table p (by simp [hp]))
        simpa [hp] using this
      have hother : ∀ pt, ∀ p ∈ s.adjIn pt, p.peer ≠ q := by
        intro pt p hp heq
        have := h.known pt p hp
        simp [heq, hq] at this
      refine ⟨?_, ?_, ?_, ?_, ht.distinct, ?_, ht.selfOwn⟩
      · intro p peer hp
        simp only [Function.update_apply] at hp
        split_ifs at hp
        · cases hp
          exact heven
        · exact ht.even p peer hp
      · intro p p' peer peer' hp hp' heq
        simp only [Function.update_apply] at hp hp'
        split_ifs at hp hp' with hpq hpq' hpq'
        · rw [hpq, hpq']
        · cases hp
          exact absurd heq.symm (hnew p' peer' hp')
        · cases hp'
          exact absurd heq (hnew p peer hp)
        · exact ht.inj p p' peer peer' hp hp' heq
      · intro p hp
        simp only [Function.update_apply] at hp
        split_ifs at hp with hpq
        · exact hpq ▸ List.mem_cons_self
        · exact List.mem_cons_of_mem _ (ht.table p hp)
      · intro k p hp hev
        obtain ⟨hzero, hown⟩ := ht.own k p hp hev
        refine ⟨hzero, fun peer hpeer => hown peer ?_⟩
        simpa [Function.update_apply, hother k p hp] using hpeer
      · intro peer hp aid
        simp only [Function.update_apply] at hp
        split_ifs at hp
        · cases hp
          rfl
        · exact ht.self peer hp aid

theorem TxInv.init (rules : ρ) (random : List ℕ) : TxInv (State.init rules random) := by
  set s₀ : State ρ :=
    { ribs := Function.update (fun _ => none) ribLocStart (some { inRules := rules }) } with hs₀
  have h₀ : TxInv s₀ := by
    constructor <;> simp [hs₀]
  have hquiet : Quiet (s₀.peerAdd peerself 0 random) (State.init rules random) :=
    Quiet.modifyPeer (fun _ => rfl) (Or.inr fun _ => rfl)
  exact hquiet.txInv (h₀.peerAdd (PathInv.empty rules) peerself 0 random)

/-! ## Runs -/

theorem TxInv.clock (ht : TxInv s) (now : ℕ) : TxInv { s with clock := now } :=
  ⟨ht.even, ht.inj, ht.table, ht.own, ht.distinct, ht.self, ht.selfOwn⟩

/-- Session events do nothing to the peer of the networks announced locally. -/
theorem Quiet.unlessSelf (h : q ≠ peerself → Quiet s s') :
    Quiet s (if q = peerself then s else s') := by
  split_ifs with hq
  · exact Quiet.refl s
  · exact h hq

/-- A step with an update that agrees does not end the program. -/
theorem TxInv.step (ht : TxInv s) (h : PathInv s) {e : Event ρ} (hok : Agreed s e) :
    ∃ s', s.step env e = .ok s' ∧ TxInv s' := by
  have hwithdraw : ∀ q pathId pt, Quiet s (s.rdeUpdateWithdraw q pathId pt) := fun q pathId pt =>
    (h.rdeUpdateWithdraw_removed q pathId pt).quiet
  cases e with
  | peerAdd q maxPrefix random => exact ⟨_, rfl, ht.peerAdd h q maxPrefix random⟩
  | up q addPathRecv =>
    exact ⟨_, rfl, (Quiet.unlessSelf fun hq => h.peerUp_quiet hq addPathRecv).txInv ht⟩
  | down q => exact ⟨_, rfl, (Quiet.unlessSelf fun _ => h.peerDown_quiet q).txInv ht⟩
  | stale q aid flushall now later =>
    exact ⟨_, rfl,
      (Quiet.unlessSelf fun _ => h.peerStale_quiet q aid flushall now later).txInv ht⟩
  | flush q aid staletime =>
    exact ⟨_, rfl, (Quiet.unlessSelf fun _ => (h.peerFlush q aid staletime).2.quiet).txInv ht⟩
  | beginRrefresh q aid now later =>
    exact ⟨_, rfl,
      (Quiet.unlessSelf fun _ => h.peerBeginRrefresh_quiet q aid now later).txInv ht⟩
  | updateErr q =>
    have herr : Quiet s (s.rdeUpdateErr q) :=
      Quiet.modifyPeer (fun _ => rfl) (Or.inr fun _ => rfl)
    exact ⟨_, rfl, (Quiet.unlessSelf fun _ => herr).txInv ht⟩
  | update q pathId pt state random now =>
    cases hpeer : s.upPeer q pt with
    | none => exact ⟨s, by simp only [State.step, hpeer], ht⟩
    | some peer =>
      have hself : q ≠ peerself := by
        have := (Option.filter_eq_some_iff.mp hpeer).2
        simp only [decide_eq_true_eq] at this
        exact this.1
      simp only [State.step, hpeer]
      refine (ht.clock now).rdeUpdateUpdate (h.clock now) (upPeer_isSome hpeer)
        (fun hq => absurd hq hself) (fun hap => wirePathId_eq_zero hap) (fun hap p hp hkey => ?_)
        state random now
      rw [wirePathId_eq_zero hap] at hkey
      exact hok peer hpeer hap p hp hkey
  | withdraw q pathId pt =>
    cases hpeer : s.upPeer q pt with
    | none => exact ⟨s, by simp only [State.step, hpeer], ht⟩
    | some peer =>
      simp only [State.step, hpeer]
      exact ⟨_, rfl, (hwithdraw _ _ _).txInv ht⟩
  | networkAdd pt state now =>
    exact (ht.clock now).networkAdd (h.clock now) state now
  | networkDelete pt => exact ⟨_, rfl, (hwithdraw _ _ _).txInv ht⟩
  | reload ribSize inRules filteredInLocrib =>
    have hquiet : Quiet s (s.reload ribSize inRules filteredInLocrib) :=
      ⟨fun _ => rfl, rfl, rfl, fun _ _ hp => Twin.refl hp⟩
    exact ⟨_, rfl, hquiet.txInv ht⟩
  | softreconfigIn pt vstate reloaded now =>
    obtain ⟨s', hrun, hquiet⟩ := (h.clock now).revalidate_ok vstate reloaded now
      (List.Subset.refl (s.adjIn pt))
    exact ⟨s', hrun, hquiet.txInv (ht.clock now)⟩
  | rpkiSoftreload pt vstate now =>
    obtain ⟨s', hrun, hquiet⟩ := (h.clock now).revalidate_ok vstate (fun _ => true) now
      (List.filter_sublist.subset : (s.adjIn pt).filter (fun p => vstate p ≠ p.state.vstate) ⊆
        s.adjIn pt)
    exact ⟨s', hrun, hquiet.txInv (ht.clock now)⟩

/-- An update that does not agree ends the program. -/
theorem TxInv.step_mismatch (ht : TxInv s) (h : PathInv s) {e : Event ρ} (hbad : ¬Agreed s e) :
    s.step env e = .error .pathIdMismatch := by
  cases e with
  | update q pathId pt state random now =>
    unfold Agreed at hbad
    push Not at hbad
    obtain ⟨peer, hpeer, hap, p, hp, ⟨hq, hid⟩, hodd⟩ := hbad
    have htx : peer.pathIdTx % 2 = 0 := ht.even q peer (upPeer_isSome hpeer)
    have hmismatch : prefixUpdate (s.adjIn pt) ⟨q, 0, peer.pathIdTx, state, false, now⟩ =
        .error .pathIdMismatch := by
      refine prefixUpdate_mismatch (h.keyed pt) hp (Prod.ext hq hid) fun heq => hodd ?_
      rw [heq]
      exact htx
    have hpeer' : s.upPeer q pt = some peer := hpeer
    simp only [State.step, hpeer', State.rdeUpdateUpdate, State.pathidAssign, hap, Bool.not_false,
      if_true, wirePathId_eq_zero hap, State.updateAdjIn, State.setClock, hmismatch]
    rfl
  | _ => exact absurd trivial hbad

/-- The paths of the RIB with an id. -/
def State.ribPaths (s : State ρ) (i : ℕ) (pt : PtEntry) : List Path :=
  if i = ribAdjIn then s.adjIn pt else s.locPaths i pt

theorem PathInv.twin_ribPaths (h : PathInv s) (hp : p ∈ s.ribPaths i pt) :
    Twin (s.adjIn pt) p := by
  unfold State.ribPaths at hp
  split_ifs at hp
  · exact Twin.refl hp
  · exact h.twin_locPaths hp

theorem PathInv.keyed_ribPaths (h : PathInv s) (i : ℕ) (pt : PtEntry) :
    Keyed (s.ribPaths i pt) := by
  unfold State.ribPaths State.locPaths
  split_ifs
  · exact h.keyed pt
  · cases hrib : s.ribs i with
    | none => exact List.nodup_nil
    | some rib => exact h.locKeyed i rib hrib pt

/-- The path ids for sending are consistent over sessions, as long as updates agree with the
    paths that are there. The program ends with the first one that does not. -/
theorem pathIds_consistent {rules : ρ} {random : List ℕ} {es : List (Event ρ)}
    (hrun : Run (rdeStep env) Agreed (State.init rules random) es s) :
    (∀ e, s.step env e = .error .pathIdMismatch ↔ ¬Agreed s e) ∧
      (∀ pt i j, ∀ p ∈ s.ribPaths i pt, ∀ p' ∈ s.ribPaths j pt, p.peer = p'.peer →
        p.pathId = p'.pathId → p.pathIdTx = p'.pathIdTx) ∧
      ∀ pt i, (s.ribPaths i pt).Pairwise fun p p' => p.pathIdTx ≠ p'.pathIdTx := by
  have hkeep : ∀ (s : State ρ) (e : Event ρ) (s' : State ρ), PathInv s ∧ TxInv s → Agreed s e →
      rdeStep env s e = some s' → PathInv s' ∧ TxInv s' := by
    intro s e s' hs hok hstep
    have hstep' := step_of_rdeStep hstep
    have hnext : ∃ s₁, s.step env e = .ok s₁ ∧ TxInv s₁ := hs.2.step hs.1 hok
    obtain ⟨s₁, heq, ht⟩ := hnext
    obtain rfl : s₁ = s' := Except.ok.inj (heq.symm.trans hstep')
    exact ⟨(hs.1.step hstep').1, ht⟩
  obtain ⟨hinv, htx⟩ := hrun.invariant hkeep ⟨PathInv.init rules random, TxInv.init rules random⟩
  -- the numbers agree as long as the calls do, and only then
  refine ⟨fun e => ⟨fun herr hok => ?_, htx.step_mismatch hinv⟩, ?_, ?_⟩
  · have hnext : ∃ s₁, s.step env e = .ok s₁ ∧ TxInv s₁ := htx.step hinv hok
    obtain ⟨s₁, heq, -⟩ := hnext
    rw [heq] at herr
    cases herr
  -- both paths are twins of one path of the Adj-RIB-In
  · intro pt i j p hp p' hp' hpeer hid
    obtain ⟨x, hx, hkey, heq⟩ := hinv.twin_ribPaths hp
    obtain ⟨x', hx', hkey', heq'⟩ := hinv.twin_ribPaths hp'
    have hsame : x = x' := by
      refine List.inj_on_of_nodup_map (hinv.keyed pt) hx hx' ?_
      rw [hkey, hkey']
      exact Prod.ext hpeer hid
    rw [← heq, ← heq', hsame]
  · intro pt i
    have hpair := List.pairwise_map.mp (hinv.keyed_ribPaths i pt)
    refine hpair.imp_of_mem fun hp hp' hne heq => hne ?_
    obtain ⟨x, hx, hkey, htx₁⟩ := hinv.twin_ribPaths hp
    obtain ⟨x', hx', hkey', htx₂⟩ := hinv.twin_ribPaths hp'
    rw [← hkey, ← hkey']
    exact htx.distinct pt x hx x' hx' (by rw [htx₁, htx₂, heq])

/-- A session with add-path that stores a path, and one without add-path after it. -/
theorem pathIds_consistent_sample :
    ∃ s : State Unit,
      Run (rdeStep fun _ _ _ state => (true, state)) Agreed (State.init () [3])
        [.peerAdd 2 0 [7], .up 2 fun _ => true, .update 2 1 ⟨.inet, 10, 8⟩ {} [6] 5,
          .stale 2 .inet false 6 7, .up 2 fun _ => false, .update 2 0 ⟨.inet, 10, 8⟩ {} [] 8] s ∧
      (s.ribPaths 1 ⟨.inet, 10, 8⟩).length = 2 ∧
      ∀ pt i, (s.ribPaths i pt).Pairwise fun p p' => p.pathIdTx ≠ p'.pathIdTx := by
  obtain ⟨s, hrun, hlen⟩ := exists_run (rdeStep fun _ _ _ state => (true, state))
    Agreed (State.init () [3])
    [.peerAdd 2 0 [7], .up 2 fun _ => true, .update 2 1 ⟨.inet, 10, 8⟩ {} [6] 5,
      .stale 2 .inet false 6 7, .up 2 fun _ => false, .update 2 0 ⟨.inet, 10, 8⟩ {} [] 8]
    (fun s => (s.ribPaths 1 ⟨.inet, 10, 8⟩).length = 2) (by decide)
  exact ⟨s, hrun, hlen, (pathIds_consistent hrun).2.2⟩

/-- The path of the session with add-path has no path id either. -/
theorem pathIds_mismatch :
    ¬∀ (s : State Unit) (es : List (Event Unit)) (e : Event Unit),
      Run (rdeStep fun _ _ _ state => (true, state)) (fun _ _ => True) (State.init () [3]) es s →
        s.step (fun _ _ _ state => (true, state)) e ≠ .error .pathIdMismatch := by
  intro h
  obtain ⟨s, hrun, herr⟩ := exists_run (rdeStep fun _ _ _ state => (true, state))
    (fun _ _ => True) (State.init () [3])
    [.peerAdd 2 0 [7], .up 2 fun _ => true, .update 2 0 ⟨.inet, 10, 8⟩ {} [6] 5,
      .stale 2 .inet false 6 7, .up 2 fun _ => false]
    (fun s => (match s.step (fun _ _ _ state => (true, state))
        (.update 2 0 ⟨.inet, 10, 8⟩ {} [] 8) with
      | .ok _ => none
      | .error e => some e) = some .pathIdMismatch) (by decide)
  refine h s _ (.update 2 0 ⟨.inet, 10, 8⟩ {} [] 8) hrun ?_
  split at herr
  · cases herr
  · rename_i e heq
    rw [heq, Option.some.inj herr]

end Bgpd.Rde.Paths
