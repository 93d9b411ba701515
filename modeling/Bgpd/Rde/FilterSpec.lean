import Bgpd.Rde.Filter

/-!
# Filter Rules without Skip Steps

`rde_filter` and the rules that are compiled for a peer give the same result as going through
all rules from the first to the last. Only paths with a broken attribute, which are denied, and
flowspec, which is allowed, never get to the rules.

## Main results

- `skipOk_calc`: a skip step leads over rules that have the same value
- `rdeFilterLoop_eq`: the loop with skip steps
- `rdeFilter_eq_plain`: both ways to evaluate the rules
-/

namespace Bgpd.Rde.Filter

variable {σ : Type} (c : FilterArgs σ)

/-! ## Plain evaluation -/

/-- The rule is for the peer. -/
def FilterPeers.For (p : FilterPeers) (peer : FilterPeer) : Prop :=
  (p.peerid = 0 ∨ p.peerid = peer.id) ∧ (p.groupid = 0 ∨ p.groupid = peer.groupid) ∧
    (p.remoteAs = 0 ∨ p.remoteAs = peer.remoteAs) ∧ (p.ebgp = true → peer.ebgp = true) ∧
    (p.ibgp = true → peer.ebgp = false)

instance (p : FilterPeers) (peer : FilterPeer) : Decidable (p.For peer) :=
  inferInstanceAs (Decidable (_ ∧ _))

/-- All rules from the first to the last. A rule that matches applies its set, sets the action
    if it has one and ends the evaluation if it is `quick`. -/
def plainEval : List (FilterRule σ) → FilterAction → FilterState → FilterAction × FilterState
  | [], action, state => (action, state)
  | f :: rest, action, state =>
    if f.peer.For c.peer ∧ rdeFilterMatch c.localAs f.match_ c.peer c.from_ state c.addr c.plen then
      let state := c.rdeApplySet f.rdeSet c.peer c.from_ state c.addr.aid
      let action := if f.action = .none then action else f.action
      if f.quick then (action, state) else plainEval rest action state
    else plainEval rest action state

variable {rules rest done : List (FilterRule σ)} {f : FilterRule σ} {action : FilterAction}
  {state : FilterState} {skip : SkipSteps} {i k : ℕ}

theorem plainEval_of_not_for (h : ¬f.peer.For c.peer) :
    plainEval c (f :: rest) action state = plainEval c rest action state := by
  simp [plainEval, h]

theorem plainEval_of_for (h : f.peer.For c.peer) :
    plainEval c (f :: rest) action state =
      if (c.applyRule f action state).1 then (c.applyRule f action state).2
      else plainEval c rest (c.applyRule f action state).2.1 (c.applyRule f action state).2.2 := by
  rw [plainEval, FilterArgs.applyRule]
  by_cases hm : rdeFilterMatch c.localAs f.match_ c.peer c.from_ state c.addr c.plen = true
  · simp [h, hm]
  · simp [h, hm]

/-- Rules that are not for the peer can be left out. -/
theorem plainEval_skip (hik : i ≤ k)
    (hskip : ∀ j f, i ≤ j → j < k → rules[j]? = some f → ¬f.peer.For c.peer) :
    plainEval c (rules.drop i) action state = plainEval c (rules.drop k) action state := by
  induction k, hik using Nat.le_induction with
  | base => rfl
  | succ k hik ih =>
    rw [ih fun j f hj hjk => hskip j f hj (Nat.lt_succ_of_lt hjk)]
    by_cases hk : k < rules.length
    · rw [List.drop_eq_getElem_cons hk]
      apply plainEval_of_not_for
      exact hskip k _ hik (Nat.lt_succ_self k) (List.getElem?_eq_getElem hk)
    · rw [List.drop_of_length_le (by omega), List.drop_of_length_le (by omega)]

/-! ## Skip steps -/

theorem setSkipSteps_apply (fld fld' : SkipField) (cur n head j : ℕ) :
    setSkipSteps fld cur n head skip j fld' =
      if fld' = fld ∧ head ≤ j ∧ j < head + n then cur else skip j fld' := by
  induction n generalizing head skip with
  | zero =>
    rw [setSkipSteps, if_neg (by omega)]
  | succ n ih =>
    rw [setSkipSteps, ih]
    by_cases hfld : fld' = fld
    · by_cases hj : j = head
      · simp [hfld, hj]
      · have hiff : head < j ∧ j < head + 1 + n ↔ head ≤ j ∧ j < head + (n + 1) := by omega
        simp [hfld, hj, hiff]
    · simp [hfld]

/-- A write concerns a single field. -/
theorem SkipState.set_apply (s : SkipState) (fld fld' : SkipField) {cur : ℕ}
    (hcur : s.head fld ≤ cur) :
    (s.set fld cur).head fld' = (if fld' = fld then cur else s.head fld') ∧
      ∀ j, (s.set fld cur).skip j fld' =
        if fld' = fld ∧ s.head fld ≤ j ∧ j < cur then cur else s.skip j fld' := by
  refine ⟨Function.update_apply .., fun j => ?_⟩
  show setSkipSteps fld cur (cur - s.head fld) (s.head fld) s.skip j fld' = _
  rw [setSkipSteps_apply, Nat.add_sub_cancel' hcur]

theorem SkipState.setIf_apply (s : SkipState) (changed : Bool) (fld fld' : SkipField) {cur : ℕ}
    (hcur : s.head fld ≤ cur) :
    (if changed then s.set fld cur else s).head fld' =
        (if changed = true ∧ fld' = fld then cur else s.head fld') ∧
      ∀ j, (if changed then s.set fld cur else s).skip j fld' =
        if (changed = true ∧ fld' = fld) ∧ s.head fld ≤ j ∧ j < cur then cur
          else s.skip j fld' := by
  cases changed with
  | false => simp
  | true =>
    simp only [if_true, true_and]
    exact s.set_apply fld fld' hcur

/-- The writes for the other two fields leave a field alone. -/
theorem SkipState.setAll_apply (s : SkipState) (changed : SkipField → Bool) (fld : SkipField)
    {cur : ℕ} (hcur : ∀ fld, s.head fld ≤ cur) :
    (s.setAll changed cur).head fld = (if changed fld then cur else s.head fld) ∧
      ∀ j, (s.setAll changed cur).skip j fld =
        if changed fld ∧ s.head fld ≤ j ∧ j < cur then cur else s.skip j fld := by
  let s₁ := if changed .peerid then s.set .peerid cur else s
  let s₂ := if changed .groupid then s₁.set .groupid cur else s₁
  have hspec₁ := fun fld => s.setIf_apply (changed .peerid) .peerid fld (hcur _)
  have hhead₁ : s₁.head .groupid = s.head .groupid ∧ s₁.head .remoteAs = s.head .remoteAs := by
    constructor
    · simpa using (hspec₁ .groupid).1
    · simpa using (hspec₁ .remoteAs).1
  have hle₁ : s₁.head .groupid ≤ cur := hhead₁.1 ▸ hcur _
  have hspec₂ := fun fld => s₁.setIf_apply (changed .groupid) .groupid fld hle₁
  have hhead₂ : s₂.head .remoteAs = s.head .remoteAs := by
    rw [← hhead₁.2]
    simpa using (hspec₂ .remoteAs).1
  have hle₂ : s₂.head .remoteAs ≤ cur := hhead₂ ▸ hcur _
  have hspec₃ := fun fld => s₂.setIf_apply (changed .remoteAs) .remoteAs fld hle₂
  show (if changed .remoteAs then s₂.set .remoteAs cur else s₂).head fld = _ ∧
    ∀ j, (if changed .remoteAs then s₂.set .remoteAs cur else s₂).skip j fld = _
  refine ⟨?_, fun j => ?_⟩
  · rw [(hspec₃ fld).1, (hspec₂ fld).1, (hspec₁ fld).1]
    cases fld <;> simp
  · rw [(hspec₃ fld).2, (hspec₂ fld).2, (hspec₁ fld).2, hhead₁.1, hhead₂]
    cases fld <;> simp

/-- The step of a rule leads on, and over rules that have the same value. -/
def SkipOkAt (rules : List (FilterRule σ)) (skip : SkipSteps) (fld : SkipField) (i : ℕ) : Prop :=
  i < skip i fld ∧ ∀ j f g, i ≤ j → j < skip i fld → rules[i]? = some f → rules[j]? = some g →
    g.peer.field fld = f.peer.field fld

/-- The loop of `rde_filter_calc_skip_steps`: steps are known before the head, and from the head
    on all rules have the value of the previous one. -/
structure SkipInv (rules : List (FilterRule σ)) (prev : FilterPeers) (cur : ℕ) (s : SkipState)
    (fld : SkipField) : Prop where
  head_le : s.head fld ≤ cur
  same : ∀ j f, s.head fld ≤ j → j < cur → rules[j]? = some f → f.peer.field fld = prev.field fld
  known : ∀ i, i < s.head fld → SkipOkAt rules s.skip fld i

variable {prev : FilterPeers} {cur : ℕ} {s : SkipState} {fld : SkipField}

/-- A write makes all steps known. -/
theorem SkipInv.skipOkAt_setAll (h : ∀ fld, SkipInv rules prev cur s fld)
    {changed : SkipField → Bool}
    (hch : changed fld = true) : ∀ i, i < cur →
      SkipOkAt rules (s.setAll changed cur).skip fld i := by
  intro i hi
  have hskip := (s.setAll_apply changed fld fun fld => (h fld).head_le).2 i
  rw [SkipOkAt, hskip]
  by_cases hhead : s.head fld ≤ i
  · rw [if_pos ⟨hch, hhead, hi⟩]
    refine ⟨hi, fun j f g hj hjc hf hg => ?_⟩
    rw [(h fld).same i f hhead hi hf, (h fld).same j g (hhead.trans hj) hjc hg]
  · rw [if_neg fun hc => hhead hc.2.1]
    exact (h fld).known i (not_le.1 hhead)

/-- One step of `rde_filter_calc_skip_steps` keeps what the skip steps promise. -/
theorem SkipInv.step (h : ∀ fld, SkipInv rules prev cur s fld) (hf : rules[cur]? = some f) :
    SkipInv rules f.peer (cur + 1)
      (s.setAll (fun i => f.peer.field i ≠ prev.field i) cur) fld := by
  obtain ⟨hhead, hskip⟩ := s.setAll_apply (fun i => f.peer.field i ≠ prev.field i) fld
    fun fld => (h fld).head_le
  -- the head of the current run, and what the rules since it have in common
  by_cases hch : f.peer.field fld = prev.field fld
  · -- the run goes on
    simp only [hch, ne_eq, not_true, decide_false, Bool.false_eq_true, if_false, false_and]
      at hhead hskip
    refine ⟨?_, ?_, ?_⟩
    · rw [hhead]
      exact Nat.le_succ_of_le (h fld).head_le
    · intro j g hj hjc hg
      rw [hhead] at hj
      rcases Nat.lt_succ_iff_lt_or_eq.1 hjc with hlt | rfl
      · rw [hch]
        exact (h fld).same j g hj hlt hg
      · rw [hf] at hg
        cases hg
        rfl
    · intro i hi
      rw [hhead] at hi
      rw [SkipOkAt, hskip]
      exact (h fld).known i hi
  · -- a new run begins at `cur`
    have htrue : decide (f.peer.field fld ≠ prev.field fld) = true := decide_eq_true hch
    rw [if_pos htrue] at hhead
    refine ⟨?_, ?_, ?_⟩
    · rw [hhead]
      exact Nat.le_succ cur
    · intro j g hj hjc hg
      rw [hhead] at hj
      obtain rfl : j = cur := by omega
      rw [hf] at hg
      cases hg
      rfl
    · rw [hhead]
      exact SkipInv.skipOkAt_setAll h htrue

theorem skipOkAt_calcSkipLoop (h : ∀ fld, SkipInv rules prev cur s fld)
    (hrest : rules.drop cur = rest) :
    ∀ i, i < rules.length → SkipOkAt rules (calcSkipLoop prev rest cur s).skip fld i := by
  induction rest generalizing prev cur s with
  | nil =>
    intro i hi
    have hcur : rules.length ≤ cur := List.drop_eq_nil_iff.1 hrest
    exact SkipInv.skipOkAt_setAll h rfl i (hi.trans_le hcur)
  | cons f rest ih =>
    have hf : rules[cur]? = some f := by
      rw [← List.head?_drop, hrest]
      rfl
    apply ih fun fld => SkipInv.step h hf
    rw [← List.drop_drop, hrest]
    rfl

/-- All steps of `rde_filter_calc_skip_steps`. -/
theorem skipOkAt_rdeFilterCalcSkipSteps (hi : i < rules.length) :
    SkipOkAt rules (rdeFilterCalcSkipSteps rules) fld i := by
  cases rules with
  | nil => simp at hi
  | cons f rest =>
    have hinit : ∀ fld, SkipInv (f :: rest) f.peer 0 ⟨fun _ _ => 0, fun _ => 0⟩ fld := fun fld =>
      ⟨le_rfl, fun j _ _ hj => absurd hj (Nat.not_lt_zero j),
        fun i hi => absurd hi (Nat.not_lt_zero i)⟩
    exact skipOkAt_calcSkipLoop hinit List.drop_zero i hi

/-! ## Rules with skip steps -/

/-- What the steps jump over is not for the peer. -/
theorem plainEval_skipStep (hi : i < rules.length) (hf : rules[i]? = some f)
    (hnot : ∀ p : FilterPeers, p.field fld = f.peer.field fld → ¬p.For c.peer) :
    i < rdeFilterCalcSkipSteps rules i fld ∧
      plainEval c (rules.drop i) action state =
        plainEval c (rules.drop (rdeFilterCalcSkipSteps rules i fld)) action state := by
  obtain ⟨hlt, hsame⟩ : SkipOkAt rules (rdeFilterCalcSkipSteps rules) fld i :=
    skipOkAt_rdeFilterCalcSkipSteps hi
  refine ⟨hlt, plainEval_skip c hlt.le fun j g hj hjk hg => ?_⟩
  exact hnot _ (hsame j f g hj hjk hf hg)

/-- From rule `i` on, skipping gives what evaluating every rule gives. -/
theorem rdeFilterLoop_eq {n : ℕ} (hfuel : rules.length - i < n) :
    rdeFilterLoop c rules (rdeFilterCalcSkipSteps rules) n i action state =
      some (plainEval c (rules.drop i) action state) := by
  induction n generalizing i action state with
  | zero => exact absurd hfuel (Nat.not_lt_zero _)
  | succ n ih =>
    rw [rdeFilterLoop]
    -- the rules are tried one after another, or some of them are skipped
    by_cases hi : i < rules.length
    · have hf := List.getElem?_eq_getElem hi
      generalize rules[i] = f at hf
      have hdrop : rules.drop i = f :: rules.drop (i + 1) := by
        rw [List.drop_eq_getElem?_toList_append, hf]
        rfl
      have hnext : rules.length - (i + 1) < n := by omega
      -- a step to a later rule that is for the same peers, or the next rule
      have hjump : ∀ fld, (∀ p : FilterPeers, p.field fld = f.peer.field fld → ¬p.For c.peer) →
          rdeFilterLoop c rules (rdeFilterCalcSkipSteps rules) n
            (rdeFilterCalcSkipSteps rules i fld)
            action state = some (plainEval c (rules.drop i) action state) := by
        intro fld hnot
        obtain ⟨hlt, heq⟩ := plainEval_skipStep c hi hf hnot
        rw [heq]
        apply ih
        omega
      have hskip : ¬f.peer.For c.peer →
          rdeFilterLoop c rules (rdeFilterCalcSkipSteps rules) n (i + 1) action state =
            some (plainEval c (rules.drop i) action state) := by
        intro hnot
        rw [hdrop, plainEval_of_not_for c hnot]
        exact ih hnext
      simp only [hf]
      -- each guard looks at one field of the peers, and skips a run of that field
      by_cases hpeerid : f.peer.peerid ≠ 0 ∧ f.peer.peerid ≠ c.peer.id
      · rw [if_pos hpeerid]
        apply hjump
        intro p hp hfor
        simp only [FilterPeers.field] at hp
        rw [← hp] at hpeerid
        exact hfor.1.elim hpeerid.1 hpeerid.2
      rw [if_neg hpeerid]
      by_cases hgroupid : f.peer.groupid ≠ 0 ∧ f.peer.groupid ≠ c.peer.groupid
      · rw [if_pos hgroupid]
        apply hjump
        intro p hp hfor
        simp only [FilterPeers.field] at hp
        rw [← hp] at hgroupid
        exact hfor.2.1.elim hgroupid.1 hgroupid.2
      rw [if_neg hgroupid]
      by_cases hremote : f.peer.remoteAs ≠ 0 ∧ f.peer.remoteAs ≠ c.peer.remoteAs
      · rw [if_pos hremote]
        apply hjump
        intro p hp hfor
        simp only [FilterPeers.field] at hp
        rw [← hp] at hremote
        exact hfor.2.2.1.elim hremote.1 hremote.2
      rw [if_neg hremote]
      -- `ebgp` and `ibgp` skip no run, only this rule
      by_cases hebgp : f.peer.ebgp = true ∧ ¬c.peer.ebgp = true
      · rw [if_pos hebgp]
        exact hskip fun hfor => hebgp.2 (hfor.2.2.2.1 hebgp.1)
      rw [if_neg hebgp]
      by_cases hibgp : f.peer.ibgp = true ∧ c.peer.ebgp = true
      · rw [if_pos hibgp]
        apply hskip
        intro hfor
        have hfalse := hfor.2.2.2.2 hibgp.1
        rw [hibgp.2] at hfalse
        exact absurd hfalse (by simp)
      rw [if_neg hibgp]
      -- no guard has held: the rule is for this peer
      have hfor : f.peer.For c.peer := by
        refine ⟨by tauto, by tauto, by tauto, by tauto, ?_⟩
        intro h
        exact Bool.eq_false_iff.2 fun he => hibgp ⟨h, he⟩
      rw [hdrop, plainEval_of_for c hfor]
      obtain ⟨quick, action', state'⟩ := c.applyRule f action state
      cases quick with
      | true => rfl
      | false => exact ih hnext
    · rw [List.getElem?_eq_none (not_lt.1 hi), List.drop_of_length_le (not_lt.1 hi)]
      rfl

/-! ## Compiled rules -/

theorem rdeFilterSkipRule_iff (peer : FilterPeer) :
    rdeFilterSkipRule peer f = true ↔ ¬f.peer.For peer := by
  simp only [rdeFilterSkipRule, FilterPeers.For, Bool.or_eq_true, decide_eq_true_eq,
    Bool.and_eq_true]
  cases f.peer.ebgp <;> cases f.peer.ibgp <;> cases peer.ebgp <;> simp <;> tauto

theorem rdeFilterOutLoop_eq :
    rdeFilterOutLoop c (peerApplyOutFilter c.peer rules) action state =
      plainEval c rules action state := by
  induction rules generalizing action state with
  | nil => rfl
  | cons f rest ih =>
    by_cases hfor : f.peer.For c.peer
    · have hkeep : rdeFilterSkipRule c.peer f = false :=
        Bool.eq_false_iff.2 fun h => (rdeFilterSkipRule_iff c.peer).1 h hfor
      rw [plainEval_of_for c hfor, peerApplyOutFilter, List.filter_cons_of_pos (by simp [hkeep]),
        List.map_cons, rdeFilterOutLoop]
      show (if (c.applyRule f action state).1 then _ else _) = _
      rw [← ih]
      rfl
    · have hleft := (rdeFilterSkipRule_iff c.peer).2 hfor
      rw [plainEval_of_not_for c hfor, ← ih, peerApplyOutFilter,
        List.filter_cons_of_neg (by simp [hleft])]
      rfl

/-- Rules with skip steps and rules compiled for a peer are evaluated like the plain list. Two
    guards come first: paths with a broken attribute are denied, flowspec is allowed. -/
theorem rdeFilter_eq_plain (rules : List (FilterRule σ)) (state : FilterState) :
    rdeFilter c (some rules) state =
      some (if state.aspath.flags.parseErr then (.deny, state)
        else if isFlowspec c.addr then (.allow, state)
        else plainEval c rules .deny state) ∧
    rdeFilterOut c (peerApplyOutFilter c.peer rules) state =
      if state.aspath.flags.parseErr then (.deny, state)
      else if isFlowspec c.addr then (.allow, state)
      else plainEval c rules .deny state := by
  refine ⟨?_, ?_⟩
  · rw [rdeFilter]
    cases state.aspath.flags.parseErr with
    | true => rfl
    | false =>
      cases isFlowspec c.addr with
      | true => rfl
      | false => exact rdeFilterLoop_eq c (Nat.lt_succ_self _)
  · rw [rdeFilterOut, rdeFilterOutLoop_eq]

/-- A flowspec prefix is allowed by an empty list. -/
theorem rdeFilter_flowspec_empty :
    ¬∀ (c : FilterArgs Unit) (rules : List (FilterRule Unit)) (state : FilterState),
      rdeFilter c (some rules) state = some (plainEval c rules .deny state) := by
  intro h
  have hflow := h ⟨fun _ _ _ state _ => state, 65000, ⟨1, 0, 65001, 65000, true⟩,
    ⟨{ id := 1, remoteAs := 65001, localAs := 65000, ebgp := true }, {}⟩,
    { aid := some .flowspec4 }, 0⟩ [] {}
  exact absurd hflow (by decide)

end Bgpd.Rde.Filter
