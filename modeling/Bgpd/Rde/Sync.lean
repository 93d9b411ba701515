import Bgpd.Rde.PeerSpec
import Bgpd.Rde.RibSpec

/-!
# Changes That Are Not Reported

A peer is in line with the Loc-RIB for a path id when its entry in the Adj-RIB-Out is the
selected one. A change of an entry that is not reported to a peer does not change the
selection of that peer: this is what makes incremental updates enough.

## Main results

- `Dirty`: a change is queued that the peer has not seen yet
- `InLine`: the peer has what it is to be told
- `EntryStep.dirty_or_inLine`: changes are reported, or do not matter
-/

namespace Bgpd.Rde

open Bgpd.Lib Relation

variable {env : UpEnv} {peer : OutParams} {aid : Aid} {pt : PtEntry} {chain l l' : List Prefix}
  {re re' : RibEntry} {evalAll : Bool} {view : ℕ → Option AdjoutAttr} {id : ℕ}

/-! ## What the selection depends on -/

theorem upDecision_timeless (env : UpEnv) (peer : OutParams) (p : Prefix) :
    upDecision env peer p.timeless = upDecision env peer p := rfl

/-- Without `rde evaluate all` a regular peer is told about the best path only. -/
theorem selectRegular_best (env : UpEnv) (hall : peer.flags.evaluateAll = false)
    (chain : List Prefix) :
    selectRegular env peer chain = chain.head?.bind fun p => (upDecision env peer p).attrs := by
  cases chain with
  | nil => rfl
  | cons p rest =>
    rw [selectRegular, List.head?_cons, Option.bind_some]
    cases upDecision env peer p with
    | announce a => rfl
    | excluded => rfl
    | filtered => simp [hall, UpDecision.attrs]

theorem selectRegular_timeless (env : UpEnv) (peer : OutParams) (chain : List Prefix) :
    selectRegular env peer (chain.map Prefix.timeless) = selectRegular env peer chain := by
  induction chain with
  | nil => rfl
  | cons p rest ih => rw [List.map_cons, selectRegular, selectRegular, ih, upDecision_timeless]

theorem selectAddpath_timeless (env : UpEnv) (peer : OutParams) (chain : List Prefix)
    (st : AddpathScan) :
    selectAddpath env peer (chain.map Prefix.timeless) st = selectAddpath env peer chain st := by
  induction chain generalizing st with
  | nil => rfl
  | cons p rest ih =>
    rw [List.map_cons, selectAddpath, selectAddpath]
    simp only [ih, upDecision_timeless]
    rfl

/-- The selection does not depend on the age of the paths. -/
theorem selPeer_congr (env : UpEnv) (peer : OutParams) (aid : Aid)
    (h : l'.map Prefix.timeless = l.map Prefix.timeless) :
    selPeer env peer aid l' = selPeer env peer aid l := by
  have key : ∀ l : List Prefix,
      selPeer env peer aid l = selPeer env peer aid (l.map Prefix.timeless) := by
    intro l
    unfold selPeer selAddpath
    rw [selectAddpath_timeless]
    congr 2
    funext id
    unfold selRegular
    rw [selectRegular_timeless]
  rw [key l', key l, h]

/-! ## Queued changes -/

/-- Does the peer need to know about every change? -/
def OutParams.needsAll (peer : OutParams) (aid : Aid) : Bool :=
  peer.capa.addPathSend aid || peer.flags.evaluateAll

/-- A change is queued that may matter for what the peer has for the path id. -/
def Dirty (peer : OutParams) (aid : Aid) (re : RibEntry) (id : ℕ) : Prop :=
  if peer.capa.addPathSend aid ∧ peer.eval.mode = .all then id ∈ re.pq.map (·.1)
  else if peer.needsAll aid then re.pqMode ≠ none
  else re.pqMode = some .default

/-- The peer has what it is to be told for the path id. -/
def InLine (env : UpEnv) (peer : OutParams) (aid : Aid) (chain : List Prefix)
    (view : ℕ → Option AdjoutAttr) (id : ℕ) : Prop :=
  ∃ f, selPeer env peer aid chain = .ok f ∧ view id = f id

/-- An entry that is not queued has no changes. -/
theorem not_dirty (hok : EntryOk evalAll pt re) (hm : re.pqMode = none) :
    ¬Dirty peer aid re id := by
  have hpq : re.pq = [] := by
    by_contra hne
    exact hok.queued hne hm
  unfold Dirty
  simp [hm, hpq]

theorem evaluated_pqMode {ev : Evaluation} {q : Enqueue} (hq : ev.enqueue = some q) :
    (re.evaluated evalAll ev).pqMode =
      if re.pqMode = some .default then some .default else some q.mode := by
  simp only [RibEntry.evaluated, hq]
  split_ifs with h
  · exact h
  · rfl

/-- A change stays queued. -/
theorem Dirty.step (hok : EntryOk evalAll pt re) (hstep : EntryStep evalAll pt re re')
    (h : Dirty peer aid re id) : Dirty peer aid re' id := by
  obtain ⟨ev, _, rfl⟩ := hstep
  cases hq : ev.enqueue with
  | none =>
    unfold Dirty at h ⊢
    simpa only [RibEntry.evaluated, hq] using h
  | some q =>
    unfold Dirty at h ⊢
    rw [evaluated_pqMode hq]
    split_ifs at h ⊢ with h1 h2 h3
    · obtain ⟨e, he, rfl⟩ := List.mem_map.mp h
      simp only [RibEntry.evaluated, hq, hok.all (List.ne_nil_of_mem he), if_true]
      by_cases hid : e.1 = q.pathIdTx
      · exact List.mem_map.mpr ⟨_, (mem_pqAdd _ _ hok.ids _).mpr (Or.inl rfl), hid.symm⟩
      · exact List.mem_map.mpr ⟨e, (mem_pqAdd _ _ hok.ids _).mpr (Or.inr ⟨he, hid⟩), rfl⟩
    · exact Option.some_ne_none _
    · exact Option.some_ne_none _
    · rfl

/-- Changes are reported, or they do not matter for the peer. -/
theorem EntryStep.dirty_or_inLine (hok : EntryOk evalAll pt re)
    (hstep : EntryStep evalAll pt re re') (hall : peer.needsAll aid → evalAll = true)
    (h : Dirty peer aid re id ∨ InLine env peer aid (eligibles re.prefixH) view id) :
    Dirty peer aid re' id ∨ InLine env peer aid (eligibles re'.prefixH) view id := by
  rcases h with h | ⟨f, hsel, hview⟩
  · exact Or.inl (h.step hok hstep)
  have hok' := hok.step hstep
  obtain ⟨ev, hE, rfl⟩ := hstep
  -- if the selection is the same, what was sent is still right
  have hinline : selPeer env peer aid (eligibles ev.h) =
      selPeer env peer aid (eligibles re.prefixH) →
      InLine env peer aid (eligibles (re.evaluated evalAll ev).prefixH) view id :=
    fun heq => ⟨f, heq.trans hsel, hview⟩
  -- a neighbour that is told of more than the best path
  by_cases hneeds : peer.needsAll aid = true
  · cases hq : ev.enqueue with
    | none => exact Or.inr (hinline (selPeer_congr env peer aid (hE.quiet (hall hneeds) hq)))
    | some q =>
      -- with all paths sent only the id of the change is dirty
      by_cases hmode : peer.capa.addPathSend aid = true ∧ peer.eval.mode = .all
      · by_cases hid : id = q.pathIdTx
        · left
          unfold Dirty
          rw [if_pos hmode, RibEntry.evaluated]
          simp only [hq, hall hneeds, if_true]
          exact List.mem_map.mpr ⟨_, (mem_pqAdd _ _ hok.ids _).mpr (Or.inl rfl), hid.symm⟩
        · -- the path with this id is the same
          right
          have hsel' : ∀ l : List Prefix, (l.map (·.pathIdTx)).Nodup → selPeer env peer aid l =
              .ok fun id => (pathById l id).bind fun p => (upDecision env peer p).attrs := by
            intro l hnd
            rw [selPeer, if_pos hmode.1, selAddpath_all hmode.2 (peer.eval.allMax hmode.2) hnd]
          rw [hsel' _ hok.list.eligibles_ids] at hsel
          obtain rfl := Except.ok.inj hsel
          refine ⟨_, hsel' _ hok'.list.eligibles_ids, hview.trans ?_⟩
          have hpath := congrArg
            (fun o : Option Prefix => o.bind fun p => (upDecision env peer p).attrs)
            (hE.byId q hq id hid)
          simp only [Option.bind_map] at hpath
          exact hpath.symm
      · left
        unfold Dirty
        rw [if_neg hmode, if_pos hneeds, evaluated_pqMode hq]
        split_ifs <;> exact Option.some_ne_none _
  -- any other neighbour is told of the best path alone
  · simp only [OutParams.needsAll, Bool.or_eq_true, not_or, Bool.not_eq_true] at hneeds
    obtain ⟨hadd, hflag⟩ := hneeds
    by_cases hdef : ∃ q ∈ ev.enqueue, q.mode = .default
    · obtain ⟨q, hq, hmode⟩ := hdef
      left
      unfold Dirty
      rw [if_neg (by simp [hadd]), if_neg (by simp [OutParams.needsAll, hadd, hflag]),
        evaluated_pqMode hq, hmode, ite_self]
    · right
      apply hinline
      push Not at hdef
      have hbest := congrArg
        (fun o : Option Prefix => o.bind fun p => (upDecision env peer p).attrs) (hE.best hdef)
      simp only [Option.bind_map] at hbest
      have hreg : selectRegular env peer (eligibles ev.h) =
          selectRegular env peer (eligibles re.prefixH) := by
        rw [selectRegular_best env hflag, selectRegular_best env hflag]
        exact hbest
      unfold selPeer
      rw [if_neg (by simp [hadd]), if_neg (by simp [hadd])]
      unfold selRegular
      rw [hreg]

theorem dirty_or_inLine_steps (hok : EntryOk evalAll pt re)
    (hsteps : ReflTransGen (EntryStep evalAll pt) re re')
    (hall : peer.needsAll aid → evalAll = true)
    (h : Dirty peer aid re id ∨ InLine env peer aid (eligibles re.prefixH) view id) :
    Dirty peer aid re' id ∨ InLine env peer aid (eligibles re'.prefixH) view id := by
  induction hsteps with
  | refl => exact h
  | tail hsteps hstep ih => exact hstep.dirty_or_inLine (hok.steps hsteps) hall ih

end Bgpd.Rde
