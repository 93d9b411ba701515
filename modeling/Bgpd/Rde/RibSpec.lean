import Bgpd.Rde.EvaluateSpec
import Bgpd.Rde.Peer
import Mathlib.Logic.Relation

/-!
# What a Change of the RIBs Does

Every change of a Loc-RIB is a sequence of evaluations, each of which is reported to the queue
of the entry or may be left unreported for the reasons that `Evaluated` gives. Peers, the
Adj-RIB-Out and dumps are not touched.

## Main results

- `EntryOk`, `RibWf`: the invariant of the RIBs and the queues
- `EntryStep`: one reported change of an entry
- `RibChange`: what `prefix_update`, `prefix_withdraw`, `peer_flush` and
  `prefix_evaluate_nexthop` do
-/

namespace Bgpd.Rde

open Relation

variable {cfg : RdeConfig} {s s₁ s' : RdeState} {rib : ℕ} {pt : PtEntry} {re re' : RibEntry}
  {ev : Evaluation} {evalAll : Bool}

/-! ## One entry -/

/-- The entry after a change of its list and the report of it. -/
def RibEntry.evaluated (re : RibEntry) (evalAll : Bool) (ev : Evaluation) : RibEntry where
  prefixH := ev.h
  pq := match ev.enqueue with
    | some q => if evalAll then pqAdd q.pathIdTx (q.newpath.map (·.ptr)) re.pq else re.pq
    | none => re.pq
  pqMode := match ev.enqueue with
    | some q => if re.pqMode = some .default then re.pqMode else some q.mode
    | none => re.pqMode

/-- One change of an entry. -/
def EntryStep (evalAll : Bool) (pt : PtEntry) (re re' : RibEntry) : Prop :=
  ∃ ev, Evaluated pt evalAll re.prefixH ev ∧ re' = re.evaluated evalAll ev

/-- An entry of an evaluated RIB. What is queued names the paths by their ids and addresses;
    this is only done with `rde_eval_all`. -/
structure EntryOk (evalAll : Bool) (pt : PtEntry) (re : RibEntry) : Prop where
  list : ListOk pt re.prefixH
  ids : (re.pq.map (·.1)).Nodup
  paths : ∀ e ∈ re.pq, (pathById (eligibles re.prefixH) e.1).map (·.ptr) = e.2
  all : re.pq ≠ [] → evalAll = true
  mode : ∀ m ∈ re.pqMode, m = .default ∨ m = .all
  queued : re.pq ≠ [] → re.pqMode ≠ none

theorem EntryOk.empty (evalAll : Bool) (pt : PtEntry) : EntryOk evalAll pt {} where
  list := ListOk.nil pt
  ids := List.nodup_nil
  paths := by simp
  all h := absurd rfl h
  mode := by simp
  queued h := absurd rfl h

/-- `rib_pq_add` replaces the element of its id and keeps the others. -/
theorem mem_pqAdd (id : ℕ) (p : Option Ptr) {pq : List (ℕ × Option Ptr)}
    (hnd : (pq.map (·.1)).Nodup) (e : ℕ × Option Ptr) :
    e ∈ pqAdd id p pq ↔ e = (id, p) ∨ e ∈ pq ∧ e.1 ≠ id := by
  induction pq with
  | nil => simp [pqAdd]
  | cons x pq ih =>
    obtain ⟨hnot, hnd⟩ := List.nodup_cons.mp hnd
    have ih := ih hnd
    unfold pqAdd at ih ⊢
    by_cases hx : x.1 = id
    · rw [List.eraseP_cons_of_pos (by simpa using hx), List.mem_append, List.mem_singleton,
        List.mem_cons, or_comm]
      refine or_congr_right ⟨fun he => ⟨Or.inr he, fun heq => ?_⟩, ?_⟩
      · exact hnot (List.mem_map.mpr ⟨e, he, heq.trans hx.symm⟩)
      · rintro ⟨rfl | he, hne⟩
        · exact absurd hx hne
        · exact he
    · rw [List.eraseP_cons_of_neg (by simpa using hx), List.cons_append, List.mem_cons, ih,
        List.mem_cons]
      constructor
      · rintro (rfl | h | ⟨he, hne⟩)
        · exact Or.inr ⟨Or.inl rfl, hx⟩
        · exact Or.inl h
        · exact Or.inr ⟨Or.inr he, hne⟩
      · rintro (h | ⟨h | he, hne⟩)
        · exact Or.inr (Or.inl h)
        · exact Or.inl h
        · exact Or.inr (Or.inr ⟨he, hne⟩)

theorem nodup_pqAdd {id : ℕ} {p : Option Ptr} {pq : List (ℕ × Option Ptr)}
    (hnd : (pq.map (·.1)).Nodup) : ((pqAdd id p pq).map (·.1)).Nodup := by
  induction pq with
  | nil => simp [pqAdd]
  | cons x pq ih =>
    obtain ⟨hnot, hnd⟩ := List.nodup_cons.mp hnd
    have hmem := mem_pqAdd id p hnd
    have ih := ih hnd
    unfold pqAdd at ih hmem ⊢
    by_cases hx : x.1 = id
    · rw [List.eraseP_cons_of_pos (by simpa using hx), List.map_append, List.map_singleton,
        List.nodup_append_comm, List.singleton_append, List.nodup_cons]
      exact ⟨hx ▸ hnot, hnd⟩
    · rw [List.eraseP_cons_of_neg (by simpa using hx), List.cons_append, List.map_cons,
        List.nodup_cons]
      refine ⟨fun h => ?_, ih⟩
      obtain ⟨e, he, heq⟩ := List.mem_map.mp h
      rcases (hmem e).mp he with rfl | ⟨he, _⟩
      · exact hx heq.symm
      · exact hnot (List.mem_map.mpr ⟨e, he, heq⟩)

/-- Equal paths up to the age have the same addresses. -/
theorem pathById_ptr_of_timeless {l l' : List Prefix}
    (h : l'.map Prefix.timeless = l.map Prefix.timeless) (id : ℕ) :
    (pathById l' id).map (·.ptr) = (pathById l id).map (·.ptr) := by
  have key : ∀ l : List Prefix,
      (pathById l id).map (·.ptr) = (pathById (l.map Prefix.timeless) id).map (·.ptr) := by
    intro l
    unfold pathById
    rw [List.find?_map, Option.map_map]
    rfl
  rw [key l', key l, h]

theorem ptr_of_essence {o o' : Option Prefix} (h : o'.map Prefix.essence = o.map Prefix.essence) :
    o'.map (·.ptr) = o.map (·.ptr) := by
  have := congrArg (Option.map fun p : Prefix => p.ptr) h
  rwa [Option.map_map, Option.map_map] at this

/-- A change keeps the invariant of the entry. -/
theorem EntryOk.step (h : EntryOk evalAll pt re) (hstep : EntryStep evalAll pt re re') :
    EntryOk evalAll pt re' := by
  obtain ⟨ev, hev, rfl⟩ := hstep
  cases hq : ev.enqueue with
  | none =>
    refine ⟨hev.ok, ?_, ?_, ?_, ?_, ?_⟩
    all_goals simp only [RibEntry.evaluated, hq]
    · exact h.ids
    · intro e he
      rw [← h.paths e he]
      exact pathById_ptr_of_timeless (hev.quiet (h.all (List.ne_nil_of_mem he)) hq) e.1
    · exact h.all
    · exact h.mode
    · exact h.queued
  | some q =>
    -- what was queued for other path ids still holds
    have hother : ∀ e ∈ re.pq, e.1 ≠ q.pathIdTx →
        (pathById (eligibles ev.h) e.1).map (·.ptr) = e.2 := by
      intro e he hne
      rw [← h.paths e he]
      exact ptr_of_essence (hev.byId q hq e.1 hne)
    refine ⟨hev.ok, ?_, ?_, ?_, ?_, ?_⟩
    all_goals simp only [RibEntry.evaluated, hq]
    · split_ifs
      · exact nodup_pqAdd h.ids
      · exact h.ids
    · intro e he
      split_ifs at he with hall
      · rcases (mem_pqAdd _ _ h.ids e).mp he with rfl | ⟨he, hne⟩
        · exact hev.queued q hq
        · exact hother e he hne
      · exact absurd (h.all (List.ne_nil_of_mem he)) hall
    · intro hne
      split_ifs at hne with hall
      · exact hall
      · exact h.all hne
    · intro m hm
      split_ifs at hm with hdef
      · exact h.mode m hm
      · obtain rfl : q.mode = m := Option.some.inj hm
        exact (hev.modes q hq).2
    · intro _
      split_ifs with hdef
      · rw [hdef]
        exact Option.some_ne_none _
      · exact Option.some_ne_none _

theorem EntryOk.steps (h : EntryOk evalAll pt re)
    (hsteps : ReflTransGen (EntryStep evalAll pt) re re') : EntryOk evalAll pt re' := by
  induction hsteps with
  | refl => exact h
  | tail _ hstep ih => exact ih.step hstep

/-! ## The RIBs -/

/-- The peer without the data of the RIBs that it holds. -/
def RdePeer.base (peer : RdePeer) : RdePeer :=
  { peer with ribPq := [], staletime := fun _ => none }

/-- The RIBs are in order: the entries are, addresses are used once, and the trees hold all
    entries with paths. -/
structure RibWf (cfg : RdeConfig) (s : RdeState) : Prop where
  entry : ∀ rib, (cfg.ribFlags rib).noevaluate = false →
    ∀ pt, EntryOk s.evalAll pt (s.entry rib pt)
  old : ∀ rib, (cfg.ribFlags rib).noevaluate = false →
    ∀ pt, ∀ p ∈ (s.entry rib pt).prefixH, p.ptr < s.nextPtr
  raw : ∀ rib, (cfg.ribFlags rib).noevaluate = true →
    ∀ pt, (s.entry rib pt).pq = [] ∧ (s.entry rib pt).pqMode = none
  sorted : s.keys.Pairwise fun a b => ptLe a b
  keys : ∀ rib pt, (s.entry rib pt).prefixH ≠ [] → pt ∈ s.keys

/-- Entries with a mode are in a queue. -/
def QueueOk (s : RdeState) : Prop :=
  ∀ rib pt, (s.entry rib pt).pqMode ≠ none → ∃ q, (rib, pt) ∈ (s.peers q).ribPq

/-- A change of the RIBs. -/
structure RibChange (cfg : RdeConfig) (s s' : RdeState) : Prop where
  wf : RibWf cfg s'
  entry : ∀ rib, (cfg.ribFlags rib).noevaluate = false → ∀ pt,
    ReflTransGen (EntryStep s.evalAll pt) (s.entry rib pt) (s'.entry rib pt)
  base : ∀ q, (s'.peers q).base = (s.peers q).base
  adjout : s'.adjout = s.adjout
  dumps : s'.dumps = s.dumps
  evalAll : s'.evalAll = s.evalAll
  keys : s.keys ⊆ s'.keys
  queued : QueueOk s → QueueOk s'

theorem RibChange.refl (h : RibWf cfg s) : RibChange cfg s s :=
  ⟨h, fun _ _ _ => .refl, fun _ => rfl, rfl, rfl, rfl, fun _ => id, id⟩

theorem RibChange.trans (h : RibChange cfg s s₁) (h' : RibChange cfg s₁ s') :
    RibChange cfg s s' where
  wf := h'.wf
  entry rib hev pt := (h.entry rib hev pt).trans (h.evalAll ▸ h'.entry rib hev pt)
  base q := (h'.base q).trans (h.base q)
  adjout := h'.adjout.trans h.adjout
  dumps := h'.dumps.trans h.dumps
  evalAll := h'.evalAll.trans h.evalAll
  keys := fun _ hk => h'.keys (h.keys hk)
  queued := fun hq => h'.queued (h.queued hq)

/-- A loop of changes for destinations that are in the tree. -/
theorem RibChange.foldl {α : Type*} {f : RdeState → α → RdeState} {l : List α} {K : List PtEntry}
    (hf : ∀ s, RibWf cfg s → K ⊆ s.keys → ∀ a ∈ l, RibChange cfg s (f s a)) (h : RibWf cfg s)
    (hK : K ⊆ s.keys) : RibChange cfg s (l.foldl f s) := by
  induction l generalizing s with
  | nil => exact RibChange.refl h
  | cons a l ih =>
    have hstep := hf s h hK a (List.mem_cons_self ..)
    refine hstep.trans (ih (fun s hs hK b hb => ?_) hstep.wf fun k hk => hstep.keys (hK hk))
    exact hf s hs hK b (List.mem_cons_of_mem _ hb)

section Frame

variable (h : RibChange cfg s s') (q : PeerId)
include h

theorem RibChange.outParams : (s'.peers q).toOutParams = (s.peers q).toOutParams :=
  (congrArg RdePeer.toOutParams (h.base q) : _)

theorem RibChange.state : (s'.peers q).state = (s.peers q).state :=
  (congrArg RdePeer.state (h.base q) : _)

theorem RibChange.pend : (s'.peers q).pend = (s.peers q).pend :=
  (congrArg RdePeer.pend (h.base q) : _)

theorem RibChange.upEnv : s'.upEnv cfg = s.upEnv cfg := by
  unfold RdeState.upEnv
  congr 1
  funext q
  rw [h.outParams q]

end Frame

/-! ## Evaluations -/

@[simp] theorem setEntry_entry (rib : ℕ) (pt : PtEntry) (re : RibEntry) (r : ℕ) (k : PtEntry) :
    (s.setEntry rib pt re).entry r k = if r = rib ∧ k = pt then re else s.entry r k := rfl

@[simp] theorem setEntry_setEntry (rib : ℕ) (pt : PtEntry) (re re' : RibEntry) :
    (s.setEntry rib pt re).setEntry rib pt re' = s.setEntry rib pt re' := by
  unfold RdeState.setEntry
  congr 1
  funext r k
  split_ifs with h
  · rfl
  · exact if_neg h

/-- Put an entry at the end of the queue of a peer. -/
def RdeState.enqueueEntry (s : RdeState) (q : PeerId) (rib : ℕ) (pt : PtEntry) : RdeState :=
  s.setPeer q { s.peers q with ribPq := (s.peers q).ribPq ++ [(rib, pt)] }

/-- An evaluation changes the entry, and puts it into a queue if it is reported and not in one. -/
theorem applyEvaluation_eq (rib : ℕ) (pt : PtEntry) (ev : Evaluation) :
    let s₁ := s.setEntry rib pt ((s.entry rib pt).evaluated s.evalAll ev)
    (s.applyEvaluation rib pt ev = s₁ ∧ (ev.enqueue = none ∨ (s.entry rib pt).pqMode ≠ none ∨
      ∃ q ∈ ev.enqueue, q.peer = none)) ∨
    ∃ q, s.applyEvaluation rib pt ev = s₁.enqueueEntry q rib pt := by
  intro s₁
  unfold RdeState.applyEvaluation
  -- nobody is told in three cases: no event, queued already, no neighbour
  cases hq : ev.enqueue with
  | none =>
    left
    refine ⟨?_, Or.inl rfl⟩
    simp only [s₁, RibEntry.evaluated, hq]
  | some q =>
    have hs₁ : s₁ = s.setEntry rib pt
        { prefixH := ev.h
          pq := if s.evalAll then pqAdd q.pathIdTx (q.newpath.map (·.ptr)) (s.entry rib pt).pq
            else (s.entry rib pt).pq
          pqMode := if (s.entry rib pt).pqMode = some .default then (s.entry rib pt).pqMode
            else some q.mode } := by
      simp only [s₁, RibEntry.evaluated, hq]
    unfold RdeState.rdeEnqueueUpdates
    simp only [setEntry_entry, and_self, if_true, setEntry_setEntry]
    cases hm : (s.entry rib pt).pqMode with
    | some m =>
      left
      refine ⟨?_, Or.inr (Or.inl (Option.some_ne_none m))⟩
      rw [hs₁, hm]
      rfl
    | none =>
      cases hp : q.peer with
      | none =>
        left
        refine ⟨?_, Or.inr (Or.inr ⟨q, rfl, hp⟩)⟩
        rw [hs₁, hm]
        rfl
      -- the event comes from a neighbour, whose queue gets the entry
      | some peer =>
        right
        refine ⟨peer, ?_⟩
        rw [hs₁, hm]
        rfl

/-- A new entry. -/
theorem RibWf.setEntry (h : RibWf cfg s)
    (hentry : s'.entry = (s.setEntry rib pt re).entry)
    (heval : s'.evalAll = s.evalAll) (hptr : s'.nextPtr = s.nextPtr) (hkeys : s'.keys = s.keys)
    (hok : (cfg.ribFlags rib).noevaluate = false → EntryOk s.evalAll pt re)
    (hold : (cfg.ribFlags rib).noevaluate = false → ∀ x ∈ re.prefixH, x.ptr < s.nextPtr)
    (hraw : (cfg.ribFlags rib).noevaluate = true → re.pq = [] ∧ re.pqMode = none)
    (hkey : re.prefixH ≠ [] → pt ∈ s.keys) : RibWf cfg s' := by
  have hcases : ∀ r k, (r = rib ∧ k = pt ∧ s'.entry r k = re) ∨ s'.entry r k = s.entry r k := by
    intro r k
    rw [hentry, setEntry_entry]
    split_ifs with hc
    · exact Or.inl ⟨hc.1, hc.2, rfl⟩
    · exact Or.inr rfl
  refine ⟨?_, ?_, ?_, ?_, ?_⟩
  · intro r hr k
    rcases hcases r k with ⟨rfl, rfl, he⟩ | he
    · rw [he, heval]
      exact hok hr
    · rw [he, heval]
      exact h.entry r hr k
  · intro r hr k
    rcases hcases r k with ⟨rfl, rfl, he⟩ | he
    · rw [he, hptr]
      exact hold hr
    · rw [he, hptr]
      exact h.old r hr k
  · intro r hr k
    rcases hcases r k with ⟨rfl, rfl, he⟩ | he
    · rw [he]
      exact hraw hr
    · rw [he]
      exact h.raw r hr k
  · rw [hkeys]
    exact h.sorted
  · intro r k
    rw [hkeys]
    rcases hcases r k with ⟨rfl, rfl, he⟩ | he
    · rw [he]
      exact hkey
    · rw [he]
      exact h.keys r k

/-- A new entry and longer queues. -/
theorem QueueOk.setEntry (h : QueueOk s) (hentry : s'.entry = (s.setEntry rib pt re).entry)
    (hsub : ∀ q, (s.peers q).ribPq ⊆ (s'.peers q).ribPq)
    (hqueue : re.pqMode ≠ none → ∃ q, (rib, pt) ∈ (s'.peers q).ribPq) : QueueOk s' := by
  intro r k hm
  rw [hentry, setEntry_entry] at hm
  split_ifs at hm with hc
  · rw [hc.1, hc.2]
    exact hqueue hm
  · obtain ⟨q, hq⟩ := h r k hm
    exact ⟨q, hsub q hq⟩

@[simp] theorem enqueueEntry_ribPq (q : PeerId) (rib : ℕ) (pt : PtEntry) (p : PeerId) :
    ((s.enqueueEntry q rib pt).peers p).ribPq =
      (s.peers p).ribPq ++ if p = q then [(rib, pt)] else [] := by
  unfold RdeState.enqueueEntry RdeState.setPeer
  split_ifs with h
  · subst h
    simp
  · simp [h]

@[simp] theorem enqueueEntry_base (q : PeerId) (rib : ℕ) (pt : PtEntry) (p : PeerId) :
    ((s.enqueueEntry q rib pt).peers p).base = (s.peers p).base := by
  unfold RdeState.enqueueEntry RdeState.setPeer
  by_cases h : p = q
  · subst h
    simp [RdePeer.base]
  · simp [h]

/-- An evaluation in an evaluated RIB. -/
theorem RibWf.applyEvaluation (h : RibWf cfg s) (hev : (cfg.ribFlags rib).noevaluate = false)
    (hE : Evaluated pt s.evalAll (s.entry rib pt).prefixH ev)
    (hold : ∀ x ∈ ev.h, x.ptr < s.nextPtr) (hkey : pt ∈ s.keys) :
    RibChange cfg s (s.applyEvaluation rib pt ev) := by
  set re := (s.entry rib pt).evaluated s.evalAll ev
  have hstep : EntryStep s.evalAll pt (s.entry rib pt) re := ⟨ev, hE, rfl⟩
  have hok : EntryOk s.evalAll pt re := (h.entry rib hev pt).step hstep
  have hentry : ∀ r, (cfg.ribFlags r).noevaluate = false → ∀ k,
      ReflTransGen (EntryStep s.evalAll k) (s.entry r k) ((s.setEntry rib pt re).entry r k) := by
    intro r _ k
    rw [setEntry_entry]
    split_ifs with hc
    · obtain ⟨rfl, rfl⟩ := hc
      exact .single hstep
    · exact .refl
  have hraw : (cfg.ribFlags rib).noevaluate = true → re.pq = [] ∧ re.pqMode = none := by
    intro hc
    rw [hev] at hc
    cases hc
  rcases applyEvaluation_eq (s := s) rib pt ev with ⟨heq, hquiet⟩ | ⟨q, heq⟩
  · rw [heq]
    refine ⟨h.setEntry rfl rfl rfl rfl (fun _ => hok) (fun _ => hold) hraw
      (fun _ => hkey), hentry,
      fun _ => rfl, rfl, rfl, rfl, fun _ => id, fun hqueue =>
      hqueue.setEntry rfl (fun _ => List.Subset.refl _) fun hm => ?_⟩
    -- the entry is queued already
    have hqueued : (s.entry rib pt).pqMode ≠ none := by
      rcases hquiet with hnone | hqueued | ⟨q, hq, hnone⟩
      · rw [RibEntry.evaluated, hnone] at hm
        exact hm
      · exact hqueued
      · have := (hE.modes q hq).1
        rw [hnone] at this
        cases this
    exact hqueue rib pt hqueued
  · rw [heq]
    refine ⟨h.setEntry rfl rfl rfl rfl (fun _ => hok) (fun _ => hold) hraw
      (fun _ => hkey), hentry,
      fun p => enqueueEntry_base q rib pt p, rfl, rfl, rfl, fun _ => id, fun hqueue =>
      hqueue.setEntry rfl (fun p => ?_) fun _ => ⟨q, ?_⟩⟩
    · rw [enqueueEntry_ribPq]
      exact List.subset_append_left _ _
    · rw [enqueueEntry_ribPq, if_pos rfl]
      exact List.mem_append_right _ (List.mem_singleton.mpr rfl)

/-- A change of the list in a RIB without decision process. -/
theorem RibWf.applyEvaluation_raw (h : RibWf cfg s) (hev : (cfg.ribFlags rib).noevaluate = true)
    (hq : ev.enqueue = none) (hkey : pt ∈ s.keys) :
    RibChange cfg s (s.applyEvaluation rib pt ev) := by
  have heq : s.applyEvaluation rib pt ev =
      s.setEntry rib pt { s.entry rib pt with prefixH := ev.h } := by
    unfold RdeState.applyEvaluation
    rw [hq]
  rw [heq]
  have hne : ∀ r, (cfg.ribFlags r).noevaluate = false → r ≠ rib := by
    rintro r hr rfl
    rw [hev] at hr
    cases hr
  refine ⟨h.setEntry rfl rfl rfl rfl (fun hc => absurd rfl (hne rib hc))
    (fun hc => absurd rfl (hne rib hc)) (fun _ => h.raw rib hev pt) (fun _ => hkey),
      fun r hr k => ?_,
    fun _ => rfl, rfl, rfl, rfl, fun _ => id, fun hqueue =>
    hqueue.setEntry rfl (fun _ => List.Subset.refl _) fun hm =>
      absurd (h.raw rib hev pt).2 hm⟩
  rw [setEntry_entry, if_neg fun hc => hne r hr hc.1]

/-- A call of `prefix_evaluate`. -/
theorem RibWf.evaluate (h : RibWf cfg s) {new old : Option Prefix}
    (hr : (cfg.ribFlags rib).noevaluate = false → Replaces pt (s.entry rib pt).prefixH new old)
    (hfresh : (cfg.ribFlags rib).noevaluate = false →
      ∀ n ∈ new, ∀ x ∈ (s.entry rib pt).prefixH, x.ptr ≠ n.ptr)
    (hold : (cfg.ribFlags rib).noevaluate = false → ∀ n ∈ new, n.ptr < s.nextPtr)
    (hkey : pt ∈ s.keys) : RibChange cfg s (s.evaluate cfg rib pt new old) := by
  unfold RdeState.evaluate
  cases hev : (cfg.ribFlags rib).noevaluate with
  | false =>
    have hok := (h.entry rib hev pt).list
    obtain ⟨ev, hrun, hE⟩ := prefixEvaluate_evaluated (c := s.decideCtx cfg) s.evalAll hev hok
      (hr hev) (hfresh hev)
    rw [hrun]
    refine h.applyEvaluation hev hE (fun x hx => ?_) hkey
    rcases prefixEvaluate_ptrs hev hok (hr hev) (hfresh hev) hrun x hx with hx | hx
    · obtain ⟨y, hy, heq⟩ := List.mem_map.mp hx
      exact heq ▸ h.old rib hev pt y hy
    · obtain ⟨n, hn, heq⟩ := Option.mem_map.mp hx
      exact heq ▸ hold hev n hn
  | true =>
    cases hrun : prefixEvaluate (s.decideCtx cfg) (cfg.ribFlags rib) s.evalAll
        (s.entry rib pt).prefixH new old with
    | none => exact RibChange.refl h
    | some ev =>
      refine h.applyEvaluation_raw hev ?_ hkey
      unfold prefixEvaluate at hrun
      split_ifs at hrun
      obtain rfl := Option.some.inj hrun
      rfl

/-! ## The operations -/

/-- A new address is taken. -/
theorem RibWf.nextPtr (h : RibWf cfg s) : RibChange cfg s { s with nextPtr := s.nextPtr + 1 } where
  wf := { h with
    old := fun rib hev pt p hp => Nat.lt_succ_of_lt (h.old rib hev pt p hp) }
  entry _ _ _ := .refl
  base _ := rfl
  adjout := rfl
  dumps := rfl
  evalAll := rfl
  keys _ := id
  queued := id

theorem mem_insertKey {k : PtEntry} {l : List PtEntry} :
    k ∈ insertKey pt l ↔ k = pt ∨ k ∈ l := by
  induction l with
  | nil => simp [insertKey]
  | cons x l ih =>
    unfold insertKey
    split_ifs
    · exact List.mem_cons
    · rw [List.mem_cons, ih, List.mem_cons, or_left_comm]

theorem ptLe_total (a b : PtEntry) : ptLe a b ∨ ptLe b a := by
  unfold ptLe
  simp only [Bool.or_eq_true, Bool.and_eq_true, decide_eq_true_eq]
  omega

theorem ptLe_trans {a b c : PtEntry} (hab : ptLe a b) (hbc : ptLe b c) : ptLe a c := by
  unfold ptLe at *
  simp only [Bool.or_eq_true, Bool.and_eq_true, decide_eq_true_eq] at *
  omega

theorem insertKey_sorted {l : List PtEntry} (h : l.Pairwise fun a b => ptLe a b) :
    (insertKey pt l).Pairwise fun a b => ptLe a b := by
  induction l with
  | nil => simp [insertKey]
  | cons x l ih =>
    obtain ⟨hx, hl⟩ := List.pairwise_cons.mp h
    unfold insertKey
    split_ifs with hle
    · refine List.pairwise_cons.mpr ⟨fun y hy => ?_, h⟩
      rcases List.mem_cons.mp hy with rfl | hy
      · exact hle
      · exact ptLe_trans hle (hx y hy)
    · refine List.pairwise_cons.mpr ⟨fun y hy => ?_, ih hl⟩
      rcases mem_insertKey.mp hy with rfl | hy
      · exact (ptLe_total y x).resolve_left hle
      · exact hx y hy

/-- `pt_add` -/
theorem RibWf.addKey (h : RibWf cfg s) (pt : PtEntry) :
    RibChange cfg s (s.addKey pt) ∧ pt ∈ (s.addKey pt).keys := by
  unfold RdeState.addKey
  split_ifs with hmem
  · exact ⟨RibChange.refl h, hmem⟩
  · refine ⟨⟨?_, fun _ _ _ => .refl, fun _ => rfl, rfl, rfl, rfl, ?_, id⟩,
      mem_insertKey.mpr (Or.inl rfl)⟩
    · exact { h with
        sorted := insertKey_sorted h.sorted
        keys := fun rib k hne => mem_insertKey.mpr (Or.inr (h.keys rib k hne)) }
    · exact fun k hk => mem_insertKey.mpr (Or.inr hk)

/-- What `pathid_assign` gives to the callers of `prefix_update`: a path id that no other path
    of the destination has. -/
def RdeState.pathidAssigned (s : RdeState) (a : PathArgs) : Prop :=
  a.pathIdTx ≠ 0 ∧ ∀ p ∈ (s.entry a.rib a.pt).prefixH, p.pathIdTx = a.pathIdTx →
    p.peer = a.peer ∧ p.pathId = a.pathId

instance (s : RdeState) (a : PathArgs) : Decidable (s.pathidAssigned a) :=
  inferInstanceAs (Decidable (_ ∧ _))

variable {a : PathArgs}

theorem prefixGet_some {peer : PeerId} {pathId : ℕ} {p : Prefix}
    (h : s.prefixGet rib peer pathId pt = some p) :
    p ∈ (s.entry rib pt).prefixH ∧ p.peer = peer ∧ p.pathId = pathId := by
  refine ⟨List.mem_of_find?_eq_some h, ?_⟩
  simpa using List.find?_some h

/-- A path with a new address takes the place of one with the same path id. -/
theorem replaces_move {l : List Prefix} (hok : ListOk pt l) {p np : Prefix} (hp : p ∈ l)
    (hpt : np.pt = pt) (hid : np.pathIdTx = p.pathIdTx) : Replaces pt l (some np) (some p) := by
  refine ⟨Or.inl rfl, ?_, ?_, ?_, ?_⟩
  · rintro o ⟨⟩
    exact ⟨p, hp, rfl⟩
  · rintro n ⟨⟩
    exact ⟨hpt, hid ▸ hok.ne p hp⟩
  · rintro n ⟨⟩ x hx heq
    exact ⟨p, rfl, by rw [List.inj_on_of_nodup_map hok.ids hx hp (heq.trans hid)]⟩
  · rintro n ⟨⟩ o ⟨⟩
    exact hid

/-- A listed path is taken out. -/
theorem replaces_remove {l : List Prefix} {p x : Prefix} (hx : x ∈ l) (hcore : x.core = p.core) :
    Replaces pt l none (some p) := by
  refine ⟨Or.inr rfl, ?_, by simp, by simp, by simp⟩
  rintro o ⟨⟩
  exact ⟨x, hx, hcore⟩

/-- `prefix_add` -/
theorem RibWf.prefixAdd (h : RibWf cfg s) (ha : s.pathidAssigned a)
    (hget : s.prefixGet a.rib a.peer a.pathId a.pt = none) :
    RibChange cfg s (s.prefixAdd cfg a) := by
  obtain ⟨hadd, hkey⟩ := h.nextPtr.wf.addKey a.pt
  have hchange := h.nextPtr.trans hadd
  have hentry : ({ s with nextPtr := s.nextPtr + 1 }.addKey a.pt).entry = s.entry := by
    unfold RdeState.addKey
    split_ifs <;> rfl
  have hptr : ({ s with nextPtr := s.nextPtr + 1 }.addKey a.pt).nextPtr = s.nextPtr + 1 := by
    unfold RdeState.addKey
    split_ifs <;> rfl
  refine hchange.trans (hchange.wf.evaluate (fun hev => ?_) (fun hev => ?_) (fun _ => ?_) hkey)
  · rw [hentry]
    refine ⟨Or.inl rfl, by simp, ?_, ?_, by simp⟩
    · rintro n ⟨⟩
      exact ⟨rfl, ha.1⟩
    · rintro n ⟨⟩ x hx hid
      have hnone := List.find?_eq_none.mp hget x hx
      exact absurd (ha.2 x hx hid) (by simpa using hnone)
  · rw [hentry]
    rintro n ⟨⟩ x hx
    exact (h.old a.rib hev a.pt x hx).ne
  · rintro n ⟨⟩
    rw [hptr]
    exact Nat.lt_succ_self _

/-- `prefix_move` -/
theorem RibWf.prefixMove (h : RibWf cfg s) {p : Prefix}
    (hp : p ∈ (s.entry a.rib a.pt).prefixH) (hid : a.pathIdTx = p.pathIdTx) :
    RibChange cfg s (s.prefixMove cfg a p) := by
  have hkey : a.pt ∈ s.keys := h.keys a.rib a.pt (List.ne_nil_of_mem hp)
  refine h.nextPtr.trans (h.nextPtr.wf.evaluate (fun hev => ?_) (fun hev => ?_) (fun _ => ?_) hkey)
  · exact replaces_move (h.entry a.rib hev a.pt).list hp rfl hid
  · rintro n ⟨⟩ x hx
    exact (h.old a.rib hev a.pt x hx).ne
  · rintro n ⟨⟩
    exact Nat.lt_succ_self _

/-- `prefix_destroy` of a listed path. -/
theorem RibWf.prefixDestroy (h : RibWf cfg s) {p x : Prefix}
    (hx : x ∈ (s.entry rib pt).prefixH) (hcore : x.core = p.core) :
    RibChange cfg s (s.prefixDestroy cfg rib pt p) :=
  h.evaluate (fun _ => replaces_remove hx hcore) (by simp) (by simp)
    (h.keys rib pt (List.ne_nil_of_mem hx))

/-- `prefix_withdraw` -/
theorem RibWf.prefixWithdraw (h : RibWf cfg s) (rib : ℕ) (peer : PeerId) (pathId : ℕ)
    (pt : PtEntry) : RibChange cfg s (s.prefixWithdraw cfg rib peer pathId pt) := by
  unfold RdeState.prefixWithdraw
  cases hget : s.prefixGet rib peer pathId pt with
  | none => exact RibChange.refl h
  | some p => exact h.prefixDestroy (prefixGet_some hget).1 rfl

/-- `prefix_evaluate_nexthop` -/
theorem RibWf.evaluateNexthop (h : RibWf cfg s) (rib : ℕ) (pt : PtEntry) (q : Ptr)
    (state oldstate : NexthopState) :
    RibChange cfg s (s.evaluateNexthop cfg rib pt q state oldstate) := by
  unfold RdeState.evaluateNexthop
  cases hfind : (s.entry rib pt).prefixH.find? (fun p => p.ptr = q) with
  | none => exact RibChange.refl h
  | some p =>
    have hp := List.mem_of_find?_eq_some hfind
    have hkey := h.keys rib pt (List.ne_nil_of_mem hp)
    cases hev : (cfg.ribFlags rib).noevaluate with
    | false =>
      have hok := (h.entry rib hev pt).list
      refine h.applyEvaluation hev
        (prefixEvaluateNexthop_evaluated s.evalAll hev hok hp state oldstate) (fun x hx => ?_) hkey
      obtain ⟨y, hy, heq⟩ := List.mem_map.mp (prefixEvaluateNexthop_ptrs hok hp state oldstate x hx)
      exact heq ▸ h.old rib hev pt y hy
    | true =>
      refine h.applyEvaluation_raw hev ?_ hkey
      unfold prefixEvaluateNexthop
      rw [if_pos hev]

/-! ## Updates of a listed path -/

/-- The list after an evaluation. -/
theorem evaluate_prefixH (hev : (cfg.ribFlags rib).noevaluate = false) {new old : Option Prefix}
    (hsome : new.isSome ∨ old.isSome) :
    ((s.evaluate cfg rib pt new old).entry rib pt).prefixH =
      insertNew (s.decideCtx cfg) new
        (removeOld (s.decideCtx cfg) old (s.entry rib pt).prefixH) := by
  unfold RdeState.evaluate
  rw [prefixEvaluate_eq s.evalAll hev hsome rfl]
  dsimp only
  rcases applyEvaluation_eq (s := s) rib pt _ with ⟨heq, _⟩ | ⟨q, heq⟩
  · rw [heq, setEntry_entry, if_pos ⟨rfl, rfl⟩]
    exact evaluationReport_h ..
  · rw [heq]
    show ((s.setEntry rib pt _).entry rib pt).prefixH = _
    rw [setEntry_entry, if_pos ⟨rfl, rfl⟩]
    exact evaluationReport_h ..

theorem touch_eligibles (q : Ptr) (now : ℕ) (l : List Prefix) :
    eligibles (l.map fun x => if x.ptr = q then { x with lastchange := now } else x) =
      (eligibles l).map fun x => if x.ptr = q then { x with lastchange := now } else x := by
  have hel : (prefixEligible ∘ fun x : Prefix =>
      if x.ptr = q then { x with lastchange := now } else x) = prefixEligible := by
    funext x
    simp only [Function.comp_apply]
    split_ifs <;> rfl
  unfold eligibles
  rw [List.filter_map, hel]

/-- A new timestamp is no change that anybody has to know about. -/
theorem touch_evaluated {l : List Prefix} (hok : ListOk pt l) (q : Ptr) (now : ℕ) :
    Evaluated pt evalAll l
      { h := l.map fun x => if x.ptr = q then { x with lastchange := now } else x } := by
  set f : Prefix → Prefix := fun x => if x.ptr = q then { x with lastchange := now } else x with hf
  have hsame : ∀ {β : Type} (g : Prefix → β),
    (∀ (x : Prefix) t, g { x with lastchange := t } = g x) →
      ∀ l : List Prefix, (l.map f).map g = l.map g := by
    intro β g hg l
    rw [List.map_map]
    refine List.map_congr_left fun x _ => ?_
    simp only [hf, Function.comp_apply]
    split_ifs
    · exact hg x now
    · rfl
  have hmem : ∀ (P : Prefix → Prop), (∀ (x : Prefix) t, P x → P { x with lastchange := t }) →
      (∀ x ∈ l, P x) → ∀ x ∈ l.map f, P x := by
    intro P hP hl x hx
    obtain ⟨y, hy, rfl⟩ := List.mem_map.mp hx
    simp only [hf]
    split_ifs
    · exact hP y now (hl y hy)
    · exact hl y hy
  refine ⟨⟨⟨?_, ?_, ?_, ?_⟩, ?_⟩, by simp, fun _ => ?_, by simp, by simp, fun _ _ => ?_⟩
  · rw [hsame (·.ptr) fun _ _ => rfl]
    exact hok.ptrs
  · rw [hsame (·.pathIdTx) fun _ _ => rfl]
    exact hok.ids
  · exact hmem _ (fun _ _ hx => hx) hok.ne
  · exact hmem _ (fun _ _ hx => hx) hok.dest
  · refine List.pairwise_map.mpr (hok.first.imp fun {x y} hxy => ?_)
    have hel : ∀ z, prefixEligible (f z) = prefixEligible z := by
      intro z
      simp only [hf]
      split_ifs <;> rfl
    rwa [hel, hel]
  · show (eligibles (l.map f)).head?.map Prefix.essence = _
    rw [touch_eligibles, ← List.head?_map, ← List.head?_map]
    exact congrArg List.head? (hsame Prefix.essence (fun _ _ => rfl) _)
  · show (eligibles (l.map f)).map Prefix.timeless = _
    rw [touch_eligibles]
    exact hsame Prefix.timeless (fun _ _ => rfl) _

theorem RibWf.touch (h : RibWf cfg s) (rib : ℕ) (hkey : pt ∈ s.keys) (q : Ptr) (now : ℕ) :
    RibChange cfg s (s.touch rib pt q now) := by
  set ev : Evaluation := { h := (s.entry rib pt).prefixH.map fun x =>
    if x.ptr = q then { x with lastchange := now } else x } with hevdef
  show RibChange cfg s (s.applyEvaluation rib pt ev)
  cases hev : (cfg.ribFlags rib).noevaluate with
  | false =>
    refine h.applyEvaluation hev (touch_evaluated (h.entry rib hev pt).list q now) ?_ hkey
    intro x hx
    obtain ⟨y, hy, rfl⟩ := List.mem_map.mp hx
    have hold := h.old rib hev pt y hy
    split_ifs
    · exact hold
    · exact hold
  | true => exact h.applyEvaluation_raw hev rfl hkey

/-- A path is taken out and put back with another filtered flag or validation state. -/
theorem RibWf.reinsert (h : RibWf cfg s) {p : Prefix} (hp : p ∈ (s.entry rib pt).prefixH)
    (filtered : Bool) (vstate : ℕ) :
    RibChange cfg s ((s.evaluate cfg rib pt none (some p)).evaluate cfg rib pt
      (some { p with filtered := filtered, validationState := vstate }) none) := by
  have hrem := h.prefixDestroy hp rfl
  refine hrem.trans (hrem.wf.evaluate (fun hev => ?_) (fun hev => ?_) (fun hev => ?_)
    (hrem.keys (h.keys rib pt (List.ne_nil_of_mem hp))))
  all_goals have hok := (h.entry rib hev pt).list
  all_goals obtain ⟨hok₁, hperm⟩ := hok.remove (c := s.decideCtx cfg) ⟨p, hp, rfl⟩
  · have hids := (((keysOk_coreList.mpr hok.toKeysOk).perm hperm)).ids
    rw [List.map_cons, List.nodup_cons] at hids
    refine ⟨Or.inl rfl, by simp, ?_, ?_, by simp⟩
    · rintro n ⟨⟩
      exact ⟨hok.dest p hp, hok.ne p hp⟩
    · rintro n ⟨⟩ x hx hid
      rw [RdeState.prefixDestroy, evaluate_prefixH hev (Or.inr rfl)] at hx
      exact absurd (List.mem_map.mpr ⟨x.core, List.mem_map_of_mem hx, hid⟩) hids.1
  · have hptrs := (((keysOk_coreList.mpr hok.toKeysOk).perm hperm)).ptrs
    rw [List.map_cons, List.nodup_cons] at hptrs
    rintro n ⟨⟩ x hx heq
    rw [RdeState.prefixDestroy, evaluate_prefixH hev (Or.inr rfl)] at hx
    exact absurd (List.mem_map.mpr ⟨x.core, List.mem_map_of_mem hx, heq⟩) hptrs.1
  · rintro n ⟨⟩
    have hptr : (s.prefixDestroy cfg rib pt p).nextPtr = s.nextPtr := by
      unfold RdeState.prefixDestroy RdeState.evaluate
      split
      · rcases applyEvaluation_eq (s := s) rib pt _ with ⟨heq, _⟩ | ⟨q, heq⟩ <;> rw [heq] <;> rfl
      · rfl
    rw [hptr]
    exact h.old rib hev pt p hp

/-- `prefix_update` -/
theorem RibWf.prefixUpdate (h : RibWf cfg s) (ha : s.pathidAssigned a)
    (hrun : s.prefixUpdate cfg a = .ok s') : RibChange cfg s s' := by
  unfold RdeState.prefixUpdate at hrun
  cases hget : s.prefixGet a.rib a.peer a.pathId a.pt with
  | none =>
    rw [hget] at hrun
    obtain rfl := Except.ok.inj hrun
    exact h.prefixAdd ha hget
  | some p =>
    rw [hget] at hrun
    have hp := (prefixGet_some hget).1
    have hkey := h.keys a.rib a.pt (List.ne_nil_of_mem hp)
    dsimp only at hrun
    split_ifs at hrun with hid hsame hflag
    · obtain rfl := Except.ok.inj hrun
      exact h.touch a.rib hkey p.ptr a.now
    · obtain rfl := Except.ok.inj hrun
      have htouch := h.touch a.rib hkey p.ptr a.now
      refine htouch.trans (htouch.wf.reinsert (p := { p with lastchange := a.now }) ?_ a.filtered
        a.state.vstate)
      show _ ∈ ((s.touch a.rib a.pt p.ptr a.now).entry a.rib a.pt).prefixH
      rw [RdeState.touch, setEntry_entry, if_pos ⟨rfl, rfl⟩]
      exact List.mem_map.mpr ⟨p, hp, if_pos rfl⟩
    · obtain rfl := Except.ok.inj hrun
      exact h.prefixMove hp (not_not.mp hid)

/-! ## Flushing a peer -/

theorem RibWf.flushPath (h : RibWf cfg s) (peer : PeerId) (hkey : pt ∈ s.keys) (p : Prefix) :
    RibChange cfg s (s.flushPath cfg peer pt p) := by
  have hloop := RibChange.foldl (K := [])
    (l := List.range' ribLocStart (cfg.ribSize - ribLocStart))
    (f := fun s i => s.prefixWithdraw cfg i peer p.pathId pt)
    (fun s hs _ i _ => hs.prefixWithdraw i peer p.pathId pt) h (List.nil_subset _)
  have hraw : ¬(cfg.ribFlags ribAdjIn).noevaluate = false := by
    rw [ribAdjIn, cfg.adjIn]
    exact Bool.noConfusion
  exact hloop.trans (hloop.wf.evaluate (fun hev => absurd hev hraw) (fun hev => absurd hev hraw)
    (by simp) (hloop.keys hkey))

theorem RibWf.flushEntry (h : RibWf cfg s) (peer : PeerId) (staletime : Option ℕ)
    (hkey : pt ∈ s.keys) : RibChange cfg s (s.flushEntry cfg peer staletime pt) := by
  refine RibChange.foldl (K := [pt]) (fun s hs hK p _ => ?_) h (by simpa using hkey)
  exact hs.flushPath peer (hK (List.mem_singleton.mpr rfl)) p

/-- `peer_flush` -/
theorem RibWf.peerFlush (h : RibWf cfg s) (peer : PeerId) (aid : Option Aid)
    (staletime : Option ℕ) : RibChange cfg s (s.peerFlush cfg peer aid staletime) := by
  unfold RdeState.peerFlush
  have hloop := RibChange.foldl (K := s.keys) (l := s.keys.filter fun k => aid.all (· = k.aid))
    (f := fun s pt => s.flushEntry cfg peer staletime pt)
    (fun s₁ hs₁ hK k hk => hs₁.flushEntry peer staletime (hK (List.mem_filter.mp hk).1)) h
    (List.Subset.refl _)
  refine hloop.trans ?_
  -- the stale times belong to the Adj-RIB-In
  dsimp only
  generalize (s.keys.filter fun k => aid.all (· = k.aid)).foldl
    (fun s pt => s.flushEntry cfg peer staletime pt) s = s₁ at hloop
  have hpq : ∀ q, ((s₁.setPeer peer { s₁.peers peer with
      staletime := fun a => if aid.all (· = a) then none else (s₁.peers peer).staletime a }).peers
        q).ribPq = (s₁.peers q).ribPq := by
    intro q
    unfold RdeState.setPeer
    dsimp only
    split_ifs with hq
    · rw [hq]
    · rfl
  refine ⟨⟨hloop.wf.entry, hloop.wf.old, hloop.wf.raw, hloop.wf.sorted, hloop.wf.keys⟩,
    fun _ _ _ => .refl, fun q => ?_, rfl, rfl, rfl, fun _ => id, fun hqueue rib pt hm => ?_⟩
  rotate_left
  · obtain ⟨q, hq⟩ := hqueue rib pt hm
    exact ⟨q, by rwa [hpq]⟩
  · unfold RdeState.setPeer
    dsimp only
    split_ifs with hq
    · rw [hq]
      rfl
    · rfl

end Bgpd.Rde
