import Bgpd.Rde.AdjoutSpec

/-!
# What an Update or a Withdraw Does

Specifications of the pending queues and of `adjout_prefix_update` and
`adjout_prefix_withdraw`. What is pending for a peer is a finite map from prefixes with path
ids to what will be sent: attributes, or `none` for a withdraw.

## Main results

- `pending_pendPrefixAdd`: a new message replaces what was pending for the prefix
- `OutChange`: the outcome of an operation for one path id
- `adjoutPrefixUpdate_spec`, `adjoutPrefixWithdraw_spec`
-/

namespace Bgpd.Rde

open Bgpd.Lib

/-! ## The pending queues -/

/-- The prefixes of all groups with their attributes. -/
def groupList (us : List PendAttr) : List ((PtEntry × ℕ) × Option AdjoutAttr) :=
  us.flatMap fun pa => pa.prefixes.map (·, pa.attrs)

namespace PendQueue

/-- Everything that is pending. -/
def list (pq : PendQueue) : List ((PtEntry × ℕ) × Option AdjoutAttr) :=
  pq.withdraws.map (·, none) ++ groupList pq.updates

/-- What is pending for a prefix with a path id. -/
def pending (pq : PendQueue) (x : PtEntry × ℕ) : Option (Option AdjoutAttr) := pq.list.lookup x

/-- Nothing is pending twice, there is one group for each set of attributes, and an
    End-of-RIB marker has no prefixes. -/
structure Wf (pq : PendQueue) : Prop where
  keys : (pq.list.map (·.1)).Nodup
  groups : (pq.updates.map (·.attrs)).Nodup
  eor : ∀ e ∈ groupList pq.updates, e.2.isSome

theorem Wf.empty : Wf {} where
  keys := by simp [list, groupList]
  groups := by simp
  eor := by simp [groupList]

end PendQueue

variable {pq : PendQueue} {x y : PtEntry × ℕ} {us : List PendAttr}

theorem groupList_pendAttrGet (attrs : Option AdjoutAttr) :
    groupList (pendAttrGet attrs us) = groupList us := by
  unfold pendAttrGet groupList
  split_ifs
  · rfl
  · simp

theorem groups_pendAttrGet {attrs : Option AdjoutAttr} (h : (us.map (·.attrs)).Nodup) :
    ((pendAttrGet attrs us).map (·.attrs)).Nodup := by
  unfold pendAttrGet
  split_ifs with hany
  · exact h
  · rw [List.map_append, List.nodup_append]
    refine ⟨h, by simp, ?_⟩
    rintro a ha b hb rfl
    apply hany
    obtain ⟨pa, hpa, rfl⟩ := List.mem_map.mp ha
    simp only [List.map_cons, List.map_nil, List.mem_singleton] at hb
    exact List.any_eq_true.mpr ⟨pa, hpa, by simpa using hb⟩

theorem mem_pendAttrGet (attrs : Option AdjoutAttr) :
    attrs ∈ (pendAttrGet attrs us).map (·.attrs) := by
  unfold pendAttrGet
  split_ifs with hany
  · obtain ⟨pa, hpa, heq⟩ := List.any_eq_true.mp hany
    exact List.mem_map.mpr ⟨pa, hpa, by simpa using heq⟩
  · simp

theorem groupList_remove (x : PtEntry × ℕ) :
    groupList (us.map fun pa => { pa with prefixes := pa.prefixes.filter (· ≠ x) }) =
      (groupList us).filter (fun e => e.1 ≠ x) := by
  unfold groupList
  induction us with
  | nil => rfl
  | cons pa us ih =>
    rw [List.map_cons, List.flatMap_cons, List.flatMap_cons, List.filter_append, ih]
    simp [List.filter_map, Function.comp_def]

theorem groupList_done (attrs : Option AdjoutAttr) :
    groupList (pendAttrDone attrs us) = groupList us := by
  unfold groupList pendAttrDone
  induction us with
  | nil => rfl
  | cons pa us ih =>
    rw [List.filter_cons, List.flatMap_cons]
    split_ifs with h
    · rw [List.flatMap_cons, ih]
    · have hnil : pa.prefixes = [] := by
        by_contra hne
        simp [hne] at h
      rw [ih, hnil, List.map_nil, List.nil_append]

/-- Adding a prefix to the group with its attributes. -/
theorem groupList_append {attrs : Option AdjoutAttr} (h : (us.map (·.attrs)).Nodup)
    (hmem : attrs ∈ us.map (·.attrs)) :
    (groupList (us.map fun pa =>
      if pa.attrs = attrs then { pa with prefixes := pa.prefixes ++ [x] } else pa)).Perm
        ((x, attrs) :: groupList us) := by
  induction us with
  | nil => simp at hmem
  | cons pa us ih =>
    obtain ⟨hnot, h⟩ := List.nodup_cons.mp h
    simp only [groupList, List.map_cons, List.flatMap_cons] at ih ⊢
    by_cases ha : pa.attrs = attrs
    · subst ha
      have hrest : us.map (fun pa' => if pa'.attrs = pa.attrs then
          { pa' with prefixes := pa'.prefixes ++ [x] } else pa') = us := by
        refine (List.map_congr_left fun pa' hpa' => ?_).trans (List.map_id us)
        exact if_neg fun heq => hnot (List.mem_map.mpr ⟨pa', hpa', heq⟩)
      rw [hrest]
      simp only [if_true, List.map_append, List.map_cons, List.map_nil, List.append_assoc,
        List.singleton_append]
      exact List.perm_middle
    · rw [if_neg ha]
      have hmem' : attrs ∈ us.map (·.attrs) := by
        rw [List.map_cons, List.mem_cons] at hmem
        exact hmem.resolve_left (Ne.symm ha)
      exact ((ih h hmem').append_left _).trans List.perm_middle

/-- The queue when a prefix is taken out of it to be put in again. -/
def PendQueue.without (pq : PendQueue) (attrs : Option AdjoutAttr) (x : PtEntry × ℕ) : PendQueue :=
  pendPrefixRemove x
    (if attrs.isSome then { pq with updates := pendAttrGet attrs pq.updates } else pq)

theorem groupList_without (attrs : Option AdjoutAttr) :
    groupList (pq.without attrs x).updates = (groupList pq.updates).filter (fun e => e.1 ≠ x) := by
  unfold PendQueue.without pendPrefixRemove
  rw [groupList_remove]
  split_ifs
  · rw [groupList_pendAttrGet]
  · rfl

theorem groups_without (attrs : Option AdjoutAttr) (h : (pq.updates.map (·.attrs)).Nodup) :
    ((pq.without attrs x).updates.map (·.attrs)).Nodup := by
  unfold PendQueue.without pendPrefixRemove
  rw [List.map_map]
  split_ifs
  · exact groups_pendAttrGet h
  · exact h

theorem mem_groups_without (a : AdjoutAttr) :
    some a ∈ (pq.without (some a) x).updates.map (·.attrs) := by
  unfold PendQueue.without pendPrefixRemove
  rw [List.map_map]
  exact mem_pendAttrGet (some a)

theorem pendAttrDone_if (o : Option AdjoutAttr) (pq : PendQueue) :
    groupList (if o.isSome then { pq with updates := pendAttrDone o pq.updates } else pq).updates =
        groupList pq.updates ∧
      (if o.isSome then { pq with updates := pendAttrDone o pq.updates } else pq).withdraws =
        pq.withdraws := by
  split_ifs
  · exact ⟨groupList_done o, rfl⟩
  · exact ⟨rfl, rfl⟩

theorem withdraws_pendPrefixAdd (attrs : Option AdjoutAttr) (pt : PtEntry) (id : ℕ) :
    (pendPrefixAdd attrs pt id pq).withdraws =
      pq.withdraws.filter (· ≠ (pt, id)) ++ if attrs.isSome then [] else [(pt, id)] := by
  unfold pendPrefixAdd
  rw [(pendAttrDone_if _ _).2]
  split_ifs with h
  · rw [List.append_nil]
    exact rfl
  · show (pendPrefixRemove (pt, id) pq).withdraws ++ _ = _
    rfl

theorem groupList_pendPrefixAdd {attrs : Option AdjoutAttr} {pt : PtEntry} {id : ℕ}
    (h : (pq.updates.map (·.attrs)).Nodup) :
    (groupList (pendPrefixAdd attrs pt id pq).updates).Perm
      ((if attrs.isSome then [((pt, id), attrs)] else []) ++
        (groupList pq.updates).filter (fun e => e.1 ≠ (pt, id))) := by
  unfold pendPrefixAdd
  rw [(pendAttrDone_if _ _).1, ← groupList_without attrs]
  cases attrs with
  | none => exact List.Perm.refl _
  | some a => exact groupList_append (groups_without (some a) h) (mem_groups_without a)

theorem list_pendPrefixAdd {attrs : Option AdjoutAttr} {pt : PtEntry} {id : ℕ} (h : pq.Wf) :
    (pendPrefixAdd attrs pt id pq).list.Perm
      (((pt, id), attrs) :: pq.list.filter (fun e => e.1 ≠ (pt, id))) := by
  unfold PendQueue.list
  rw [withdraws_pendPrefixAdd, List.filter_append]
  refine ((groupList_pendPrefixAdd h.groups).append_left _).trans ?_
  have hmap : (pq.withdraws.map fun y => (y, (none : Option AdjoutAttr))).filter
      (fun e => e.1 ≠ (pt, id)) = (pq.withdraws.filter (· ≠ (pt, id))).map (·, none) := by
    rw [List.filter_map]
    rfl
  rw [hmap]
  cases attrs with
  | none =>
    rw [List.map_append, List.append_assoc]
    exact List.perm_middle
  | some a =>
    simp only [Option.isSome_some, if_true, List.append_nil, List.singleton_append]
    exact List.perm_middle

/-- A queued prefix makes no new group of attributes. -/
theorem pendPrefixAdd_updates_sublist (attrs : Option AdjoutAttr) (pt : PtEntry) (id : ℕ)
    (pq : PendQueue) :
    ((pendPrefixAdd attrs pt id pq).updates.map (·.attrs)).Sublist
      ((pq.without attrs (pt, id)).updates.map (·.attrs)) := by
  unfold pendPrefixAdd PendQueue.without
  have hkeep : ∀ (us : List PendAttr), (us.map fun pa =>
      if pa.attrs = attrs then { pa with prefixes := pa.prefixes ++ [(pt, id)] } else pa).map
        (·.attrs) = us.map (·.attrs) := by
    intro us
    rw [List.map_map]
    refine List.map_congr_left fun pa _ => ?_
    simp only [Function.comp_apply]
    split_ifs <;> rfl
  have hdone : ∀ (o : Option AdjoutAttr) (pq : PendQueue),
      ((if o.isSome then { pq with updates := pendAttrDone o pq.updates } else pq).updates.map
        (·.attrs)).Sublist (pq.updates.map (·.attrs)) := by
    intro o pq
    split_ifs
    · exact List.Sublist.map _ List.filter_sublist
    · exact List.Sublist.refl _
  refine (hdone _ _).trans ?_
  split_ifs
  · rw [hkeep]
  · exact List.Sublist.refl _

theorem PendQueue.Wf.pendPrefixAdd {attrs : Option AdjoutAttr} {pt : PtEntry} {id : ℕ}
    (h : pq.Wf) : (pendPrefixAdd attrs pt id pq).Wf where
  keys := by
    rw [((list_pendPrefixAdd h).map _).nodup_iff, List.map_cons, List.nodup_cons]
    refine ⟨fun hmem => ?_, h.keys.sublist (List.Sublist.map _ List.filter_sublist)⟩
    obtain ⟨e, he, heq⟩ := List.mem_map.mp hmem
    simp [heq] at he
  groups := (pendPrefixAdd_updates_sublist attrs pt id pq).nodup (groups_without attrs h.groups)
  eor e he := by
    rw [(groupList_pendPrefixAdd h.groups).mem_iff, List.mem_append] at he
    rcases he with he | he
    · split_ifs at he with hsome
      · rw [List.mem_singleton.mp he]
        exact hsome
      · cases he
    · exact h.eor e (List.mem_of_mem_filter he)

/-- A new message replaces what was pending for the prefix. -/
theorem pending_pendPrefixAdd {attrs : Option AdjoutAttr} {pt : PtEntry} {id : ℕ} (h : pq.Wf) :
    (pendPrefixAdd attrs pt id pq).pending x = if x = (pt, id) then some attrs
      else pq.pending x := by
  unfold PendQueue.pending
  rw [lookup_perm h.pendPrefixAdd.keys (list_pendPrefixAdd h), ← List.nil_append (_ :: _),
    lookup_middle (by simp), List.nil_append, lookup_filter_ne]
  split_ifs <;> rfl

/-! ## One operation -/

variable {peer : PeerId} {pt : PtEntry} {out out₁ out' : Out} {attrs : AdjoutAttr} {id i : ℕ}
  {e : AdjoutPrefix}

/-- What the update functions work on is well formed. -/
structure Out.Wf (out : Out) : Prop where
  adjout : AdjoutWf out.adjout
  pend : out.pend.Wf

/-- What an operation for one peer and one destination leaves alone: the entries of the other
    peers and what is pending for other destinations. Only an outbound prefix limit changes
    the state of the session. -/
structure OutFrame (peer : PeerId) (pt : PtEntry) (out out' : Out) : Prop where
  wf : out'.Wf
  other : ∀ q ≠ peer, adjoutEntries q out'.adjout = adjoutEntries q out.adjout
  pendOther : ∀ y : PtEntry × ℕ, y.1 ≠ pt → out'.pend.pending y = out.pend.pending y
  pendDown : out.state ≠ .up → out'.pend = out.pend
  state : out'.state = out.state ∨ out'.state = .err

theorem OutFrame.refl (h : out.Wf) : OutFrame peer pt out out :=
  ⟨h, fun _ _ => rfl, fun _ _ => rfl, fun _ => rfl, Or.inl rfl⟩

theorem OutFrame.trans (h : OutFrame peer pt out out₁) (h' : OutFrame peer pt out₁ out') :
    OutFrame peer pt out out' where
  wf := h'.wf
  other q hq := (h'.other q hq).trans (h.other q hq)
  pendOther y hy := (h'.pendOther y hy).trans (h.pendOther y hy)
  pendDown hne := by
    rw [h'.pendDown, h.pendDown hne]
    rcases h.state with hs | hs
    · rwa [hs]
    · rw [hs]
      decide
  state := by
    rcases h'.state with hs | hs
    · rw [hs]
      exact h.state
    · exact Or.inr hs

/-- What the entry with path id `id` becomes, and whether the peer is told. -/
structure OutSet (peer : PeerId) (pt : PtEntry) (id : ℕ) (value : Option AdjoutAttr) (told : Bool)
    (out out' : Out) : Prop extends OutFrame peer pt out out' where
  stays : out'.state = out.state
  view : ∀ id', adjoutView peer out'.adjout id' =
    if id' = id then value else adjoutView peer out.adjout id'
  pending : out.state = .up → ∀ id', out'.pend.pending (pt, id') =
    if id' = id ∧ told then some value else out.pend.pending (pt, id')

theorem Out.pendAdd_adjout (out : Out) (o : Option AdjoutAttr) :
    (out.pendAdd o pt id).adjout = out.adjout := by
  unfold Out.pendAdd
  split_ifs <;> rfl

theorem Out.pendAdd_state (out : Out) (o : Option AdjoutAttr) :
    (out.pendAdd o pt id).state = out.state := by
  unfold Out.pendAdd
  split_ifs <;> rfl

theorem Out.pendAdd_pend_of_ne (h : out.state ≠ .up) (o : Option AdjoutAttr) :
    (out.pendAdd o pt id).pend = out.pend := by
  unfold Out.pendAdd
  rw [if_neg h]

theorem Out.pendAdd_pend (h : out.state = .up) (o : Option AdjoutAttr) :
    (out.pendAdd o pt id).pend = pendPrefixAdd o pt id out.pend := by
  unfold Out.pendAdd
  rw [if_pos h]

theorem Out.pendAdd_wf (h : out.pend.Wf) (o : Option AdjoutAttr) :
    (out.pendAdd o pt id).pend.Wf := by
  by_cases hup : out.state = .up
  · rw [Out.pendAdd_pend hup]
    exact h.pendPrefixAdd
  · rwa [Out.pendAdd_pend_of_ne hup]

theorem Out.pendAdd_other (h : out.pend.Wf) (o : Option AdjoutAttr) {y : PtEntry × ℕ}
    (hy : y.1 ≠ pt) : (out.pendAdd o pt id).pend.pending y = out.pend.pending y := by
  by_cases hup : out.state = .up
  · rw [Out.pendAdd_pend hup, pending_pendPrefixAdd h, if_neg]
    rintro rfl
    exact hy rfl
  · rw [Out.pendAdd_pend_of_ne hup]

/-- Tell the peer what became of the entry. -/
theorem OutSet.tell {v : Option AdjoutAttr} {told : Bool} (h : OutSet peer pt id v told out out₁) :
    OutSet peer pt id v true out (out₁.pendAdd v pt id) where
  wf := ⟨by rw [Out.pendAdd_adjout]; exact h.wf.adjout, Out.pendAdd_wf h.wf.pend v⟩
  other q hq := by
    rw [Out.pendAdd_adjout]
    exact h.other q hq
  pendOther y hy := (Out.pendAdd_other h.wf.pend v hy).trans (h.pendOther y hy)
  pendDown hne := by
    rw [Out.pendAdd_pend_of_ne (by rwa [h.stays])]
    exact h.pendDown hne
  state := Or.inl ((Out.pendAdd_state ..).trans h.stays)
  stays := (Out.pendAdd_state ..).trans h.stays
  view id' := by
    rw [Out.pendAdd_adjout]
    exact h.view id'
  pending hup id' := by
    rw [Out.pendAdd_pend (h.stays.trans hup), pending_pendPrefixAdd h.wf.pend, h.pending hup id']
    by_cases hid : id' = id
    · simp [hid]
    · simp [hid]

/-- An entry that was taken out silently gets a new value. -/
theorem OutSet.trans {v v₁ : Option AdjoutAttr} {told : Bool}
    (h : OutSet peer pt id v₁ false out out₁) (h' : OutSet peer pt id v told out₁ out') :
    OutSet peer pt id v told out out' where
  toOutFrame := h.toOutFrame.trans h'.toOutFrame
  stays := h'.stays.trans h.stays
  view id' := by
    rw [h'.view, h.view]
    split_ifs <;> rfl
  pending hup id' := by
    rw [h'.pending (h.stays.trans hup), h.pending hup]
    simp

/-- `adjout_prefix_link` without telling the peer. -/
theorem linked_spec (h : out.Wf) (hview : adjoutView peer out.adjout id = none) (n : ℕ) :
    OutSet peer pt id (some attrs) false out
      { out with adjout := adjoutPrefixLink peer attrs id out.adjout, prefixOutCnt := n } where
  wf := ⟨h.adjout.link hview, h.pend⟩
  other _ hq := adjoutEntries_link hq
  pendOther _ _ := rfl
  pendDown _ := rfl
  state := Or.inl rfl
  stays := rfl
  view _ := h.adjout.adjoutView_link hview
  pending _ _ := by simp

/-- The second half of `adjout_prefix_update`. -/
theorem Out.link_spec (h : out.Wf) (hview : adjoutView peer out.adjout id = none) :
    OutSet peer pt id (some attrs) true out (out.link peer attrs pt id) :=
  (linked_spec h hview (out.prefixOutCnt + 1)).tell

/-- `adjout_prefix_unlink` without telling the peer. -/
theorem Out.unlink_spec (h : out.Wf) (he : out.adjout[i]? = some e) (hq : peer ∈ e.peermap) :
    OutSet peer pt e.pathIdTx none false out (out.unlink peer i) where
  wf := ⟨h.adjout.unlink he, h.pend⟩
  other _ hne := adjoutEntries_unlink he hne
  pendOther _ _ := rfl
  pendDown _ := rfl
  state := Or.inl rfl
  stays := rfl
  view _ := h.adjout.adjoutView_unlink he hq
  pending _ _ := by simp [Out.unlink]

/-- Nothing happens to an entry that has its value already. -/
theorem OutSet.refl (h : out.Wf) {v : Option AdjoutAttr}
    (hview : adjoutView peer out.adjout id = v) :
    OutSet peer pt id v false out out where
  toOutFrame := OutFrame.refl h
  stays := rfl
  view id' := by
    split_ifs with hid
    · rw [hid, hview]
    · rfl
  pending _ _ := by simp

theorem Out.Wf.view_get (h : out.Wf) (he : out.adjout[i]? = some e) (hq : peer ∈ e.peermap) :
    adjoutView peer out.adjout e.pathIdTx = e.attrs := by
  obtain ⟨l, r, harr, _⟩ := exists_split_of_getElem? he
  rw [harr]
  exact AdjoutWf.view_middle (harr ▸ h.adjout) hq

/-- `p` is the entry with the given path id, if the peer has one. -/
def IsEntry (peer : PeerId) (id : ℕ) (p : Option ℕ) (out : Out) : Prop :=
  p = none ∧ adjoutView peer out.adjout id = none ∨
    ∃ i e, p = some i ∧ out.adjout[i]? = some e ∧ e.pathIdTx = id ∧ peer ∈ e.peermap

theorem Out.Wf.isEntry_get (h : out.Wf) (peer : PeerId) (id : ℕ) :
    IsEntry peer id (adjoutPrefixGet peer id out.adjout) out := by
  cases hget : adjoutPrefixGet peer id out.adjout with
  | none => exact Or.inl ⟨rfl, adjoutPrefixGet_none h.adjout.sorted hget⟩
  | some i =>
    obtain ⟨e, he, hid, hq⟩ := adjoutPrefixGet_some hget
    exact Or.inr ⟨i, e, rfl, he, hid, hq⟩

/-- `adjout_prefix_update` for the entry with the path id it is called with, if the peer has
    one. The peer is told if something changed or the update is forced. -/
theorem adjoutPrefixUpdate_spec (h : out.Wf) {p : Option ℕ} (attrs : AdjoutAttr) (pt : PtEntry)
    (forceSend : Bool) (hp : IsEntry peer id p out) :
    ∃ out', adjoutPrefixUpdate p peer attrs pt id forceSend out = .ok out' ∧
      OutSet peer pt id (some attrs)
        (forceSend || adjoutView peer out.adjout id ≠ some attrs) out out' := by
  rcases hp with ⟨rfl, hview⟩ | ⟨i, e, rfl, he, rfl, hq⟩
  · refine ⟨_, rfl, ?_⟩
    have hset : OutSet peer pt id (some attrs) true out _ := Out.link_spec h hview
    simpa [hview] using hset
  · have hview := h.view_get he hq
    simp only [adjoutPrefixUpdate, he, ne_eq, not_true_eq_false, hq, or_self, if_false, hview]
    by_cases hsame : e.attrs = some attrs
    · rw [if_pos hsame]
      refine ⟨_, rfl, ?_⟩
      have hset : OutSet peer pt e.pathIdTx (some attrs) false out out :=
        OutSet.refl h (hview.trans hsame)
      cases forceSend with
      | false => simpa [hsame] using hset
      | true => simpa [hsame] using hset.tell
    · rw [if_neg hsame]
      refine ⟨_, rfl, ?_⟩
      have hgone : OutSet peer pt e.pathIdTx none false out _ := Out.unlink_spec h he hq
      have hnone : adjoutView peer (out.unlink peer i).adjout e.pathIdTx = none := by
        rw [hgone.view, if_pos rfl]
      simpa [hsame] using hgone.trans (Out.link_spec hgone.wf hnone)

theorem Out.pendAdd_unlink (o : Option AdjoutAttr) :
    (out.pendAdd o pt id).unlink peer i = (out.unlink peer i).pendAdd o pt id := by
  unfold Out.pendAdd Out.unlink
  split_ifs <;> rfl

/-- `adjout_prefix_withdraw` of an entry the peer has. -/
theorem adjoutPrefixWithdraw_spec (h : out.Wf) (pt : PtEntry) (skipSend : Bool)
    (he : out.adjout[i]? = some e)
    (hq : peer ∈ e.peermap) :
    ∃ out', adjoutPrefixWithdraw peer pt i skipSend out = .ok out' ∧
      OutSet peer pt e.pathIdTx none (!skipSend) out out' := by
  have hset : OutSet peer pt e.pathIdTx none false out _ := Out.unlink_spec h he hq
  simp only [adjoutPrefixWithdraw, he, hq, not_true_eq_false, if_false]
  refine ⟨_, rfl, ?_⟩
  cases skipSend with
  | true => exact hset
  | false =>
    simp only [Bool.false_eq_true, if_false, Out.pendAdd_unlink]
    exact hset.tell

end Bgpd.Rde
