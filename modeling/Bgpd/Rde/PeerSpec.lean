import Bgpd.Rde.AddpathSpec
import Bgpd.Rde.Peer

/-!
# Generation for a Peer

The selection of a peer, whichever generator it has, and the outcome of a call of
`peer_generate_update`.

## Main results

- `selPeer`: what a peer is to be told about a destination
- `upGenerate_spec`: the outcome of the generator of a peer
-/

namespace Bgpd.Rde

open Bgpd.Lib

variable {env : UpEnv} {peer : OutParams} {pt : PtEntry} {mode : EvalMode} {out out' : Out}
  {chain : List Prefix}

/-! ## The selection of a peer -/

/-- What a peer is to be told about a destination with these eligible paths. -/
def selPeer (env : UpEnv) (peer : OutParams) (aid : Aid) (chain : List Prefix) :
    Except Fatal (ℕ → Option AdjoutAttr) :=
  if peer.capa.addPathSend aid then selAddpath env peer chain
  else .ok (selRegular env peer chain)

/-- The path ids a call of the generator takes care of. -/
def genIds (peer : OutParams) (aid : Aid) (mode : EvalMode) (queued : List ℕ) (out : Out) : Set ℕ :=
  if peer.capa.addPathSend aid then
    if peer.eval.mode = .all ∧ ¬(mode = .sync ∨ mode = .reeval) then { id | id ∈ queued }
    else { id | id ≠ 0 }
  else if mode = .all ∧ !peer.flags.evaluateAll then ∅
  else regularIds mode peer.conf.id out

/-- The path ids a generator may give to new entries. -/
def newIds (peer : OutParams) (aid : Aid) (chain : List Prefix) : Set ℕ :=
  if peer.capa.addPathSend aid then { id | id ∈ chain.map (·.pathIdTx) } else {0}

/-- The eligible paths of a destination. -/
structure ChainOk (pt : PtEntry) (chain : List Prefix) : Prop where
  eligible : ∀ x ∈ chain, prefixEligible x
  dest : ∀ x ∈ chain, x.pt = pt
  ids : (chain.map (·.pathIdTx)).Nodup
  ne : ∀ x ∈ chain, x.pathIdTx ≠ 0

theorem ChainOk.nil (pt : PtEntry) : ChainOk pt [] where
  eligible := by simp
  dest := by simp
  ids := List.nodup_nil
  ne := by simp

theorem ListOk.takeWhile_eligible {h : List Prefix} (hok : ListOk pt h) :
    h.takeWhile prefixEligible = eligibles h := by
  conv_lhs => rw [hok.first.split]
  have hE : ∀ x ∈ h.filter prefixEligible, prefixEligible x = true :=
    fun x hx => (List.mem_filter.mp hx).2
  rw [List.takeWhile_append_of_pos hE]
  have hI : (h.filter fun x => !prefixEligible x).takeWhile prefixEligible = [] := by
    cases hl : h.filter fun x => !prefixEligible x with
    | nil => rfl
    | cons y l =>
      have hy : y ∈ h.filter fun x => !prefixEligible x := by
        rw [hl]
        exact List.mem_cons_self ..
      have hel : prefixEligible y = false := by simpa using (List.mem_filter.mp hy).2
      rw [List.takeWhile_cons_of_neg (by simp [hel])]
  rw [hI, List.append_nil, eligibles]

theorem ListOk.chainOk {h : List Prefix} (hok : ListOk pt h) : ChainOk pt (eligibles h) where
  eligible _ hx := (List.mem_filter.mp hx).2
  dest x hx := hok.dest x (List.mem_filter.mp hx).1
  ids := hok.eligibles_ids
  ne x hx := hok.ne x (List.mem_filter.mp hx).1

/-- The selection never names a path id that may not be used. -/
theorem selPeer_newIds {aid : Aid} {f : ℕ → Option AdjoutAttr}
    (h : selPeer env peer aid chain = .ok f) {id : ℕ} (hid : f id ≠ none) :
    id ∈ newIds peer aid chain := by
  unfold selPeer at h
  unfold newIds
  split_ifs at h ⊢ with hadd
  · unfold selAddpath at h
    cases hsel : selectAddpath env peer chain { ids := [] } with
    | error e =>
      rw [hsel] at h
      cases h
    | ok l =>
      rw [hsel] at h
      obtain rfl : (fun id => l.lookup id) = f := Except.ok.inj h
      obtain ⟨a, ha⟩ := Option.ne_none_iff_exists'.mp hid
      exact (selectAddpath_ids hsel).subset (List.mem_map.mpr ⟨(id, a), mem_of_lookup ha, rfl⟩)
  · obtain rfl : selRegular env peer chain = f := Except.ok.inj h
    by_contra hne
    exact hid (if_neg hne)

/-! ## The outcome of the generator -/

/-- The outcome only depends on the selection for the path ids that are taken care of. -/
theorem GenOutcome.congr {R ids ids' : Set ℕ} {f g : ℕ → Option AdjoutAttr}
    (hfg : ∀ id ∈ R, f id = g id) (hids : ids ⊆ ids')
    (h : GenOutcome peer pt mode R ids (.ok f) out (.ok out')) :
    GenOutcome peer pt mode R ids' (.ok g) out (.ok out') := by
  cases h with
  | limit frame state max view =>
    exact .limit frame state max fun id hid => view id fun hmem => hid (hids hmem)
  | @done f' _ hsel gen state hnew =>
    obtain rfl : f = f' := Except.ok.inj hsel
    refine .done rfl ⟨gen.toOutFrame, fun id hid => ?_, gen.viewRest, fun hup id hid => ?_,
      gen.pendingRest⟩ state fun id hid hne => hids (hnew id hid ?_)
    · rw [← hfg id hid]
      exact gen.view id hid
    · rw [← hfg id hid]
      exact gen.pending hup id hid
    · rwa [hfg id hid]

/-- Nothing is done. -/
theorem GenOutcome.skip {ids : Set ℕ} {f : ℕ → Option AdjoutAttr} (h : out.Wf) :
    GenOutcome peer pt mode ∅ ids (.ok f) out (.ok out) := by
  refine .done rfl ⟨OutFrame.refl h, ?_, fun _ _ => rfl, ?_, fun _ _ _ => rfl⟩ rfl ?_
  · simp
  · simp
  · simp

/-- The generator of a peer. The queued paths are those of the chain, and a regular peer has no
    entries with other path ids than 0 unless this is a dump. -/
theorem upGenerate_spec (env : UpEnv) (peer : OutParams) (mode : EvalMode)
    (hchain : ChainOk pt chain) {pq : List (ℕ × Option Prefix)} (hnd : (pq.map (·.1)).Nodup)
    (hpq : ∀ e ∈ pq, e.2 = pathById chain e.1)
    (hstray : peer.capa.addPathSend pt.aid = false → mode = .sync ∨
      ∀ e ∈ (adjoutEntries peer.conf.id out.adjout).head?, e.1 = 0) (h : out.Wf) :
    GenOutcome peer pt mode (genIds peer pt.aid mode (pq.map (·.1)) out)
      (newIds peer pt.aid chain) (selPeer env peer pt.aid chain) out
      (upGenerate env peer pt chain pq mode out) := by
  unfold genIds newIds selPeer upGenerate
  cases hadd : peer.capa.addPathSend pt.aid with
  | true =>
    simp only [if_true]
    have hgen := upGenerateAddpath_spec env peer mode hchain.eligible hchain.dest hchain.ids
      hchain.ne h
    by_cases hall : peer.eval.mode = .all
    · rw [if_pos hall]
      unfold upGenerateAddpathAll
      -- the walk over the queue and the walk over the chain announce the same
      by_cases hmode : mode = .sync ∨ mode = .reeval
      · rw [if_pos hmode, if_neg (fun hc => hc.2 hmode)]
        exact hgen
      · rw [if_neg hmode, if_pos ⟨hall, hmode⟩,
          selAddpath_all hall (peer.eval.allMax hall) hchain.ids]
        have hpath : ∀ e ∈ pq, ∀ x ∈ e.2, x ∈ chain ∧ x.pathIdTx = e.1 := by
          intro e he x hx
          rw [hpq e he] at hx
          exact (pathById_eq_some_iff hchain.ids).mp hx
        obtain ⟨out', hrun, hloop⟩ := upAddpathAllLoop_spec env peer mode hnd
          (fun e he x hx => ⟨(hpath e he x hx).2, hchain.dest x (hpath e he x hx).1⟩) h
        rw [hrun]
        refine hloop.congr (fun id hid => ?_) ?_
        · -- the queued path is the one of the chain
          obtain ⟨e, he, rfl⟩ := List.mem_map.mp hid
          have hlookup : pq.lookup e.1 = some (pathById chain e.1) := by
            rw [← hpq e he]
            exact (mem_iff_lookup hnd).mp he
          rw [selPending, hlookup, Option.bind_some, selQueued]
          congr 1
          cases hp : pathById chain e.1 with
          | none => rfl
          | some x =>
            have hx := ((pathById_eq_some_iff hchain.ids).mp hp).1
            simp [hchain.eligible x hx]
        · rintro id ⟨e, he, x, hx, rfl⟩
          exact List.mem_map_of_mem (hpath e he x hx).1
    · rw [if_neg hall, if_neg (fun hc => hall hc.1)]
      exact hgen
  | false =>
    simp only [Bool.false_eq_true, if_false]
    -- a neighbour that takes only best paths is not told of the others
    by_cases hskip : mode = .all ∧ (!peer.flags.evaluateAll) = true
    · rw [if_pos hskip, if_pos hskip]
      exact GenOutcome.skip h
    · rw [if_neg hskip, if_neg hskip]
      exact upGenerateUpdates_spec env peer h hchain.eligible hchain.dest (hstray hadd)

theorem GenOutcome.frame {R ids : Set ℕ} {sel : Except Fatal (ℕ → Option AdjoutAttr)}
    (h : GenOutcome peer pt mode R ids sel out (.ok out')) : OutFrame peer.conf.id pt out out' := by
  cases h with
  | limit frame => exact frame
  | done _ gen => exact gen.toOutFrame

/-- Whatever entries the peer has, only the ones for the destination are changed. -/
theorem upGenerate_frame (hchain : ChainOk pt chain) {pq : List (ℕ × Option Prefix)}
    (hnd : (pq.map (·.1)).Nodup) (hpq : ∀ e ∈ pq, e.2 = pathById chain e.1) (h : out.Wf)
    (hrun : upGenerate env peer pt chain pq mode out = .ok out') :
    OutFrame peer.conf.id pt out out' := by
  by_cases hstray : peer.capa.addPathSend pt.aid = false → mode = .sync ∨
      ∀ e ∈ (adjoutEntries peer.conf.id out.adjout).head?, e.1 = 0
  · have hgen := upGenerate_spec env peer mode hchain hnd hpq hstray h
    rw [hrun] at hgen
    exact hgen.frame
  · push Not at hstray
    obtain ⟨hadd, hmode, e, he, hne⟩ := hstray
    unfold upGenerate at hrun
    rw [if_neg (by simp [hadd])] at hrun
    split_ifs at hrun
    · obtain rfl := Except.ok.inj hrun
      exact OutFrame.refl h
    · rcases upGenerateUpdates_stray env peer pt h hchain.eligible hmode he hne with
        ⟨_, herr⟩ | ⟨_, out₁, hok, hset⟩
      · rw [herr] at hrun
        cases hrun
      · rw [hok] at hrun
        obtain rfl := Except.ok.inj hrun
        exact hset.toOutFrame

end Bgpd.Rde
