import Bgpd.Rde.AttrParse
import Bgpd.Rde.Consistency
import Bgpd.Rde.Provenance

/-!
# Open Policy on Output

The open policy of a session obliges one side to attach the OTC attribute to routes. On output
this is done in `up_enforce_open_policy`, which every path of a RIB goes through on its way to an
Adj-RIB-Out. The default route that is generated for peers with `export default-route` does not.

Besides what happens to the RDE all the time, the parts of a reload are events that change the
settings of peers or their Adj-RIB-Outs.

## Main results

- `attrLoop_otc`: paths with the OTC flag arrive with the attribute
- `upDecide_otc`: paths of a RIB get the attribute
- `upDecideDefault_bare`: default routes never do
- `otc_on_output`: in a run without such default routes all entries carry it
-/

namespace Bgpd.Rde

open Bgpd.Lib

/-! ## The attribute -/

/-- The path carries an OTC attribute. -/
def HasOtc (asp : RdeAspath) : Prop := ∃ a ∈ asp.others, a.type = attrOtc

instance (asp : RdeAspath) : Decidable (HasOtc asp) :=
  inferInstanceAs (Decidable (∃ a ∈ asp.others, a.type = attrOtc))

/-- `F_ATTR_OTC` is only set on paths that carry the attribute. -/
def OtcFlagged (asp : RdeAspath) : Prop := asp.flags.otc = true → HasOtc asp

instance (asp : RdeAspath) : Decidable (OtcFlagged asp) :=
  inferInstanceAs (Decidable (asp.flags.otc = true → HasOtc asp))

/-- The local roles that oblige to attach OTC towards the peer. -/
def Role.attachesOtc (role : Role) : Prop := role = .peer ∨ role = .provider ∨ role = .rs

instance (role : Role) : Decidable role.attachesOtc := inferInstanceAs (Decidable (_ ∨ _ ∨ _))

/-- IPv4 and IPv6 unicast -/
def Aid.isUnicast (aid : Aid) : Prop := aid = .inet ∨ aid = .inet6

instance (aid : Aid) : Decidable aid.isUnicast := inferInstanceAs (Decidable (_ ∨ _))

variable {asp : RdeAspath} {new : Attr} {others : List Attr}

theorem mem_attrOptadd : ∀ {others : List Attr} {x : Attr}, x ∈ others → x ∈ attrOptadd new others
  | a :: rest, x, hx => by
    rw [attrOptadd]
    split_ifs
    · exact hx
    · exact List.mem_cons_of_mem _ hx
    · rcases List.mem_cons.mp hx with rfl | hx
      · exact List.mem_cons_self
      · exact List.mem_cons_of_mem _ (mem_attrOptadd hx)

/-- Afterwards the list has an attribute of the type, the new one or one that was there. -/
theorem type_mem_attrOptadd (new : Attr) (others : List Attr) :
    ∃ a ∈ attrOptadd new others, a.type = new.type := by
  induction others with
  | nil => exact ⟨new, List.mem_singleton.mpr rfl, rfl⟩
  | cons a rest ih =>
    rw [attrOptadd]
    split_ifs with heq
    · exact ⟨a, List.mem_cons_self, heq.symm⟩
    · exact ⟨new, List.mem_cons_self, rfl⟩
    · obtain ⟨x, hx, htype⟩ := ih
      exact ⟨x, List.mem_cons_of_mem _ hx, htype⟩

/-! ## Attributes as they arrive -/

namespace Parse

variable {peer : ParsePeer} {st st' : ParseState} {a : RawAttr}

/-- The flag and the attribute go together in what was parsed. -/
abbrev ParseState.OtcFlagged (st : ParseState) : Prop := Rde.OtcFlagged st.state.aspath

theorem ParseState.OtcFlagged.optadd (h : st.OtcFlagged) {flags type : UInt8} {data : List UInt8}
    (hrun : st.optadd flags type data = some st') : st'.OtcFlagged := by
  unfold ParseState.optadd at hrun
  dsimp only at hrun
  split_ifs at hrun
  obtain rfl := Option.some.inj hrun
  intro hotc
  obtain ⟨x, hx, htype⟩ := h hotc
  exact ⟨x, mem_attrOptadd hx, htype⟩

theorem ParseState.OtcFlagged.optattr (h : st.OtcFlagged) {data : List UInt8}
    (hrun : optattr st a data = .ok st') : st'.OtcFlagged := by
  unfold Parse.optattr at hrun
  split at hrun
  · cases hrun
  · next st₁ hadd =>
    obtain rfl := Except.ok.inj hrun
    exact h.optadd hadd

theorem failIf_ok {c : Prop} [Decidable c] {e : UpdErr} {rest : Except UpdErr ParseState}
    (h : failIf c e rest = .ok st') : rest = .ok st' := by
  unfold failIf at h
  split_ifs at h
  exact h

/-- The type of an OTC attribute. -/
theorem ofByte_otc {type : UInt8} (h : AttrType.ofByte type = .otc) : type.toNat = attrOtc := by
  unfold AttrType.ofByte at h
  split at h
  all_goals first | exact AttrType.noConfusion h | (rename_i heq; exact heq)

/-- The OTC attribute sets the flag only where it is kept. -/
theorem parseOtc_flagged (h : st.OtcFlagged) (htype : a.type.toNat = attrOtc)
    (hrun : parseOtc peer st a = .ok st') : st'.OtcFlagged := by
  have hrun := failIf_ok hrun
  split_ifs at hrun
  · obtain rfl := Except.ok.inj hrun
    exact h
  · unfold optattr at hrun
    dsimp only at hrun
    split at hrun
    · cases hrun
    · next st₁ hadd =>
      obtain rfl := Except.ok.inj hrun
      unfold ParseState.optadd at hadd
      dsimp only at hadd
      split_ifs at hadd
      obtain rfl := Option.some.inj hadd
      intro _
      obtain ⟨x, hx, hxtype⟩ := type_mem_attrOptadd
        ⟨(a.flags &&& ~~~attrDefmask).toNat, a.type.toNat, a.data.map UInt8.toNat⟩
        st.state.aspath.others
      exact ⟨x, hx, hxtype.trans htype⟩

theorem parseCommunities_flagged (h : st.OtcFlagged)
    {add : List UInt8 → List Community → Option (List Community)}
    (hrun : parseCommunities add st a = .ok st') : st'.OtcFlagged := by
  obtain rfl := Except.ok.inj (failIf_ok hrun)
  unfold ParseState.communities
  split
  · exact h
  · exact h

/-- One attribute. -/
theorem rdeAttrParse_flagged (h : st.OtcFlagged) (hrun : rdeAttrParse peer st a = .ok st') :
    st'.OtcFlagged := by
  unfold rdeAttrParse at hrun
  cases htype : AttrType.ofByte a.type with
  | undef =>
    rw [htype] at hrun
    obtain rfl := Except.ok.inj hrun
    exact h
  | origin =>
    rw [htype] at hrun
    have hrun := failIf_ok (failIf_ok (failIf_ok hrun))
    obtain rfl := Except.ok.inj hrun
    split_ifs
    · exact h
    · exact h
  | aspath =>
    rw [htype] at hrun
    have hrun := failIf_ok (failIf_ok (failIf_ok hrun))
    obtain rfl := Except.ok.inj hrun
    show Rde.OtcFlagged (ParseState.setSeen (if _ then _ else _) _).state.aspath
    split_ifs
    · exact h
    · exact h
  | nexthop =>
    rw [htype] at hrun
    have hrun := failIf_ok (failIf_ok (failIf_ok (failIf_ok hrun)))
    obtain rfl := Except.ok.inj hrun
    exact h
  | med =>
    rw [htype] at hrun
    have hrun := failIf_ok (failIf_ok (failIf_ok hrun))
    obtain rfl := Except.ok.inj hrun
    exact h
  | localpref =>
    rw [htype] at hrun
    have hrun := failIf_ok (failIf_ok hrun)
    split_ifs at hrun
    · obtain rfl := Except.ok.inj hrun
      exact h
    · have hrun := failIf_ok hrun
      obtain rfl := Except.ok.inj hrun
      exact h
  | atomicAggregate =>
    rw [htype] at hrun
    exact h.optattr (failIf_ok (failIf_ok hrun))
  | aggregator =>
    rw [htype] at hrun
    have hrun := failIf_ok hrun
    dsimp only at hrun
    split_ifs at hrun
    all_goals first | exact h.optattr hrun | (obtain rfl := Except.ok.inj hrun; exact h)
  | communities =>
    rw [htype] at hrun
    exact parseCommunities_flagged h hrun
  | largeCommunities =>
    rw [htype] at hrun
    exact parseCommunities_flagged h hrun
  | extCommunities =>
    rw [htype] at hrun
    exact parseCommunities_flagged h hrun
  | originatorId =>
    rw [htype] at hrun
    exact h.optattr (failIf_ok (failIf_ok hrun))
  | clusterList =>
    rw [htype] at hrun
    have hrun := failIf_ok hrun
    split_ifs at hrun
    all_goals first | exact h.optattr hrun | (obtain rfl := Except.ok.inj hrun; exact h)
  | mpReach =>
    rw [htype] at hrun
    obtain rfl := Except.ok.inj (failIf_ok (failIf_ok (failIf_ok hrun)))
    exact h
  | mpUnreach =>
    rw [htype] at hrun
    obtain rfl := Except.ok.inj (failIf_ok (failIf_ok (failIf_ok hrun)))
    exact h
  | as4Aggregator =>
    rw [htype] at hrun
    have hrun := failIf_ok hrun
    have hseen : (st.setSeen seenAs4byteNew).OtcFlagged := h
    split_ifs at hrun
    all_goals first | exact hseen.optattr hrun | (obtain rfl := Except.ok.inj hrun; exact h)
  | as4Path =>
    rw [htype] at hrun
    have hrun := failIf_ok hrun
    have hseen : (st.setSeen seenAs4byteNew).OtcFlagged := h
    split_ifs at hrun
    all_goals first | exact hseen.optattr hrun | (obtain rfl := Except.ok.inj hrun; exact h)
  | otc =>
    rw [htype] at hrun
    exact parseOtc_flagged h (ofByte_otc htype) hrun
  | other =>
    rw [htype] at hrun
    exact h.optattr (failIf_ok hrun)

/-- All attributes of a message. -/
theorem attrLoop_otc {n : ℕ} {buf : List UInt8} {as as' : List RawAttr} (h : st.OtcFlagged)
    (hrun : attrLoop peer n buf as st = .ok (as', st')) : st'.OtcFlagged := by
  induction n generalizing buf as st with
  | zero =>
    cases buf with
    | nil =>
      obtain ⟨-, rfl⟩ := Prod.mk.inj (Except.ok.inj hrun)
      exact h
    | cons b buf => cases hrun
  | succ n ih =>
    cases buf with
    | nil =>
      obtain ⟨-, rfl⟩ := Prod.mk.inj (Except.ok.inj hrun)
      exact h
    | cons b buf =>
      unfold attrLoop at hrun
      split at hrun
      · cases hrun
      · obtain ⟨st₁, hst₁, hrun⟩ := except_bind_ok hrun
        exact ih (rdeAttrParse_flagged h hst₁) hrun

/-- Other attributes are added and freed afterwards. -/
theorem setOthers_flagged (h : st.OtcFlagged)
    (hothers : HasOtc st.state.aspath → ∃ x ∈ others, x.type = attrOtc) :
    (st.setOthers others).OtcFlagged := fun hotc => hothers (h hotc)

theorem attrFree_otc {type : ℕ} (htype : type ≠ attrOtc) (h : ∃ x ∈ others, x.type = attrOtc) :
    ∃ x ∈ attrFree type others, x.type = attrOtc := by
  obtain ⟨x, hx, hxtype⟩ := h
  exact ⟨x, List.mem_filter.mpr ⟨hx, by simpa [hxtype] using htype.symm⟩, hxtype⟩

theorem attrOptadd_otc (new : Attr) (h : ∃ x ∈ others, x.type = attrOtc) :
    ∃ x ∈ attrOptadd new others, x.type = attrOtc := by
  obtain ⟨x, hx, hxtype⟩ := h
  exact ⟨x, mem_attrOptadd hx, hxtype⟩

theorem mergeAs4Path_flagged (h : st.OtcFlagged) (nasp : Option Attr) :
    (mergeAs4Path st nasp).OtcFlagged := by
  unfold mergeAs4Path
  split
  · exact h
  · split
    · exact h
    · exact setOthers_flagged h fun hotc => attrFree_otc (by decide) hotc

/-- `rde_as4byte_fixup` -/
theorem rdeAs4byteFixup_flagged (h : st.OtcFlagged) : (rdeAs4byteFixup peer st).OtcFlagged := by
  have hboth : (st.setOthers (attrFree attrAs4Aggregator
      (attrFree attrAs4Path st.state.aspath.others))).OtcFlagged :=
    setOthers_flagged h fun hotc => attrFree_otc (by decide) (attrFree_otc (by decide) hotc)
  have haggr : (st.setOthers (attrFree attrAs4Aggregator st.state.aspath.others)).OtcFlagged :=
    setOthers_flagged h fun hotc => attrFree_otc (by decide) hotc
  unfold rdeAs4byteFixup
  dsimp only
  split_ifs
  · exact h
  · exact hboth
  · split
    · split_ifs
      · exact hboth
      · split
        · refine mergeAs4Path_flagged (setOthers_flagged h fun hotc => ?_) _
          exact attrFree_otc (by decide) (attrOptadd_otc _ (attrFree_otc (by decide) hotc))
        · exact mergeAs4Path_flagged h _
    · exact mergeAs4Path_flagged haggr _

/-- `rde_reflector` -/
theorem rdeReflector_flagged (h : st.OtcFlagged) (conf : ParseConf) :
    (rdeReflector conf peer st).OtcFlagged := by
  have hcluster : ∀ st : ParseState, st.OtcFlagged →
      (reflectorCluster conf.clusterid st).OtcFlagged := by
    intro st h
    unfold reflectorCluster
    dsimp only
    split
    · split_ifs
      · exact h
      · exact setOthers_flagged h fun hotc => attrOptadd_otc _ (attrFree_otc (by decide) hotc)
    · exact setOthers_flagged h fun hotc => attrOptadd_otc _ hotc
  unfold rdeReflector
  dsimp only
  split
  · exact h
  · split
    · split
      · exact h
      · split
        · exact hcluster st h
        · exact h
    · split
      · exact hcluster _ (setOthers_flagged h fun hotc => attrOptadd_otc _ hotc)
      · exact h

end Parse

/-! ## What the generators decide -/

/-- The output filter leaves the flags and the attributes that are kept as bytes alone. -/
def FilterKeeps (f : ℕ → FilterPeer → FromPeer → PtEntry → FilterState → Option FilterState) :
    Prop :=
  ∀ rules peer from_ pt state state', f rules peer from_ pt state = some state' →
    Filter.FlagsKept state.aspath state'.aspath

/-- `pt_getaddr` for the families that rules apply to. -/
def PtEntry.getaddr (pt : PtEntry) : BgpdAddr := { aid := some pt.aid, addr := pt.data }

/-- `rde_filter_out` with the interned rule sets. -/
def outFilter (localAs : ℕ) (outRules : ℕ → List (Filter.FilterRule (List Filter.FilterSetElm)))
    (rules : ℕ) (peer : FilterPeer) (from_ : FromPeer) (pt : PtEntry) (state : FilterState) :
    Option FilterState :=
  let r := Filter.rdeFilterOut (Filter.filterArgs localAs peer from_ pt.getaddr pt.prefixlen)
    (outRules rules) state
  if r.1 = .deny then none else some r.2

theorem outFilter_keeps (localAs : ℕ)
    (outRules : ℕ → List (Filter.FilterRule (List Filter.FilterSetElm))) :
    FilterKeeps (outFilter localAs outRules) := by
  intro rules peer from_ pt state state' h
  unfold outFilter at h
  dsimp only at h
  split_ifs at h
  obtain rfl := Option.some.inj h
  exact Filter.rdeFilterOut_kept rfl _ _

variable {env : UpEnv} {peer : OutParams} {state state' : FilterState} {p : Prefix}
  {attrs : AdjoutAttr} {aid : Aid}

theorem upPrepAdjout_others (env : UpEnv) (peer : OutParams) (state : FilterState) (aid : Aid) :
    (upPrepAdjout env peer state aid).aspath.others = state.aspath.others := by
  unfold upPrepAdjout
  dsimp only
  split_ifs <;> rfl

/-- The duty of `up_enforce_open_policy`. -/
theorem upEnforceOpenPolicy_otc (hflag : OtcFlagged state.aspath) (haid : aid.isUnicast)
    (hrole : peer.role.attachesOtc) (h : upEnforceOpenPolicy peer state aid = some state') :
    HasOtc state'.aspath := by
  unfold upEnforceOpenPolicy at h
  have hunicast : ¬(aid ≠ .inet ∧ aid ≠ .inet6) := fun hne => haid.elim hne.1 hne.2
  rw [if_neg hunicast] at h
  split_ifs at h with hleak hnew
  · obtain rfl := Option.some.inj h
    exact type_mem_attrOptadd _ _
  · obtain rfl := Option.some.inj h
    refine hflag ?_
    by_contra hotc
    exact hnew ⟨hrole, by simpa using hotc⟩

/-- Paths of a RIB are announced with the attribute. -/
theorem upDecide_otc (hkeep : FilterKeeps env.filterOut) (hflag : OtcFlagged p.asp)
    (haid : p.pt.aid.isUnicast) (hrole : peer.role.attachesOtc)
    (h : upDecide env peer p = .ok (.announce attrs)) : HasOtc attrs.aspath := by
  obtain ⟨ok, -, h⟩ := except_bind_ok h
  split at h
  · cases h
  · next state hfilter =>
    have hkept := hkeep _ _ _ _ _ _ hfilter
    have hstate : OtcFlagged state.aspath := by
      intro hotc
      unfold HasOtc
      rw [hkept.others]
      exact hflag (hkept.otc ▸ hotc)
    split at h
    · cases h
    · next state' henforce =>
      split_ifs at h
      · cases h
      · obtain rfl := UpDecision.announce.inj (Except.ok.inj h)
        unfold HasOtc
        rw [upPrepAdjout_others]
        exact upEnforceOpenPolicy_otc hstate haid hrole henforce

/-- A default route is announced without it, whatever the role is. -/
theorem upDecideDefault_bare (hkeep : FilterKeeps env.filterOut)
    (h : upDecideDefault env peer aid = some attrs) : ¬HasOtc attrs.aspath := by
  obtain ⟨state, hfilter, rfl⟩ := Option.map_eq_some_iff.mp h
  rintro ⟨x, hx, -⟩
  rw [upPrepAdjout_others, (hkeep _ _ _ _ _ _ hfilter).others] at hx
  exact List.not_mem_nil hx

/-! ## Reloads -/

/-- What may happen to Adj-RIB-Outs, also in a reload. -/
inductive OutEvent where
  | rde (e : Event)
  /-- `rde_reload_done`: the new settings of a peer -/
  | settings (q : PeerId) (peer : OutParams)
  /-- `rde_up_flush_upcall` for the entries of a destination -/
  | flushOut (q : PeerId) (pt : PtEntry)
  /-- `rde_softreconfig_out` for a RIB entry, with the peers for which `reconf_out` is set -/
  | reeval (rib : ℕ) (pt : PtEntry) (qs : List PeerId)
  /-- `up_generate_default` in `rde_softreconfig_in_done` -/
  | resendDefault (q : PeerId) (aid : Aid)
  /-- `peer_dump` in `rde_softreconfig_in_done` -/
  | redump (q : PeerId) (aid : Aid)

variable (cfg : RdeConfig)

/-- `rde_up_flush_upcall` -/
def RdeState.upFlush (s : RdeState) (q : PeerId) (pt : PtEntry) : Except Fatal RdeState :=
  (withdrawAll q pt false ((adjoutPrefixes q (s.adjout pt)).map (·.1)) (s.out q pt)).map fun out =>
    (s.setOut q pt out).collect pt

/-- `rde_softreconfig_out`, and `rde_enqueue_updates` with `EVAL_REEVAL`. -/
def RdeState.softreconfigOut (s : RdeState) (rib : ℕ) (pt : PtEntry) (qs : List PeerId) :
    Except Fatal RdeState :=
  match prefixBest (cfg.ribFlags rib) (s.entry rib pt).prefixH with
  -- no valid path for prefix
  | none => .ok s
  | some _ => (s.generateAll cfg rib pt .reeval qs).map fun s => s.collect pt

/-- One step. -/
def RdeState.outStep (s : RdeState) : OutEvent → Except Fatal RdeState
  | .rde e => s.step cfg e
  | .settings q peer => .ok (s.setPeer q { s.peers q with toOutParams := peer })
  | .flushOut q pt => s.upFlush q pt
  | .reeval rib pt qs => s.softreconfigOut cfg rib pt qs
  | .resendDefault q aid => s.dumpDefault cfg q aid
  | .redump q aid => s.peerDump cfg q aid

/-- The step function for runs. -/
def outStep (s : RdeState) (e : OutEvent) : Option RdeState := (s.outStep cfg e).toOption

/-- Roles are fixed, and new paths have the flag as the parser sets it. -/
def fixedRoles (s : RdeState) : OutEvent → Prop
  | .rde (.update a) => OtcFlagged a.state.aspath
  | .settings q peer => peer.conf.id = q ∧ peer.role = (s.peers q).role
  | _ => True

/-- A default route would be generated for a peer that is owed the attribute. -/
def RdeState.BareDefault (s : RdeState) (q : PeerId) (aid : Aid) : Prop :=
  aid.isUnicast ∧ (s.peers q).role.attachesOtc ∧ (s.peers q).capa.mp aid = true ∧
    (upDecideDefault (s.upEnv cfg) (s.peers q).toOutParams aid).isSome = true

instance (s : RdeState) (q : PeerId) (aid : Aid) : Decidable (s.BareDefault cfg q aid) :=
  inferInstanceAs (Decidable (_ ∧ _ ∧ _ ∧ _))

/-- No such default route is generated: not in a session that is dumped, nor in a reload. -/
def noBareDefault (s : RdeState) : OutEvent → Prop
  | .rde (.up q sup) => (s.peers q).exportType = .defaultRoute → (s.peers q).inSync sup = false →
      ∀ aid ∈ Aid.all, ¬(s.setPeer q ((s.peers q).withSession sup)).BareDefault cfg q aid
  | .resendDefault q aid => ¬s.BareDefault cfg q aid
  | .redump q aid => (s.peers q).exportType = .defaultRoute → ¬s.BareDefault cfg q aid
  | _ => True

instance (s : RdeState) (e : OutEvent) : Decidable (fixedRoles s e) :=
  match e with
  | .rde (.update a) => inferInstanceAs (Decidable (OtcFlagged a.state.aspath))
  | .settings _ _ => inferInstanceAs (Decidable (_ ∧ _))
  | .rde (.withdraw ..) | .rde (.flush ..) | .rde (.nexthop ..) | .rde
    (.process _) | .rde (.dump ..)
  | .rde (.up ..) | .rde (.down _) | .rde (.stale ..) | .rde (.sendWithdraws ..)
  | .rde (.sendUpdate ..) | .flushOut .. | .reeval .. | .resendDefault .. | .redump .. =>
    isTrue trivial

instance (s : RdeState) (e : OutEvent) : Decidable (noBareDefault cfg s e) :=
  match e with
  | .rde (.up _ _) => inferInstanceAs (Decidable (_ → _ → _))
  | .resendDefault q aid => inferInstanceAs (Decidable (¬s.BareDefault cfg q aid))
  | .redump _ _ => inferInstanceAs (Decidable (_ → _))
  | .rde (.update _) | .rde (.withdraw ..) | .rde (.flush ..) | .rde (.nexthop ..)
  | .rde (.process _) | .rde (.dump ..) | .rde (.down _) | .rde (.stale ..)
  | .rde (.sendWithdraws ..) | .rde (.sendUpdate ..) | .settings .. | .flushOut .. | .reeval .. =>
    isTrue trivial

/-- Every IPv4 or IPv6 unicast entry of a neighbor that is owed the attribute carries it. -/
def RdeState.OtcAttached (s : RdeState) : Prop :=
  ∀ q pt, ∀ e ∈ adjoutEntries q (s.adjout pt), pt.aid.isUnicast →
    (s.peers q).role.attachesOtc → HasOtc e.2.aspath

/-! ## The invariant -/

/-- What an entry owes to the role of its peer. -/
def OtcFor (role : PeerId → Role) (aid : Aid) (q : PeerId) (attrs : AdjoutAttr) : Prop :=
  aid.isUnicast → (role q).attachesOtc → HasOtc attrs.aspath

/-- Roles are what they were, and paths and entries carry the attribute where they have to. -/
structure OutputOk (role : PeerId → Role) (s : RdeState) : Prop where
  paths : s.PathsAre OtcFlagged
  entries : ∀ pt, EntriesAre (OtcFor role pt.aid) (s.adjout pt)
  confId : ∀ q, (s.peers q).conf.id = q
  role : ∀ q, (s.peers q).role = role q

variable {cfg} {s s' : RdeState} {q : PeerId}

/-- It depends on nothing but what the generators read of peers. -/
theorem bareDefault_congr
    (hparams : ∀ p, (s'.peers p).toOutParams = (s.peers p).toOutParams) {aid : Aid} :
    s'.BareDefault cfg q aid ↔ s.BareDefault cfg q aid := by
  have henv : s'.upEnv cfg = s.upEnv cfg := by
    unfold RdeState.upEnv
    congr 1
    funext p
    rw [hparams p]
  unfold RdeState.BareDefault
  rw [henv, hparams q]

/-- Where the condition is not met the property is lost: the default route is an entry then. -/
theorem dumpDefault_bare (hkeep : FilterKeeps cfg.filterOut) (hwf : OutWf s) {aid : Aid}
    (hids : ∀ e ∈ adjoutEntries q (s.adjout (defaultPt aid)), e.1 = 0)
    (hbare : s.BareDefault cfg q aid) (hrun : s.dumpDefault cfg q aid = .ok s') :
    ¬s'.OtcAttached := by
  obtain ⟨haid, hrole, hmp, hsome⟩ := hbare
  obtain ⟨out, hgen, rfl⟩ := except_map_ok hrun
  have hspec := upGenerateDefault_spec (s.upEnv cfg) (s.peers q).toOutParams aid
    (hwf.out q (defaultPt aid)) (by rw [hwf.confId]; exact hids)
  rcases hspec with ⟨hnone, _⟩ | ⟨attrs, out₁, _, hattrs, hset, hres⟩
  · rw [hnone hmp] at hsome
    cases hsome
  · have hview : adjoutView q out.adjout 0 = some attrs := by
      have hview := hset.view 0
      rw [if_pos rfl, hwf.confId] at hview
      rcases hres with hres | ⟨hres, _⟩
      · obtain rfl := Except.ok.inj (hgen.symm.trans hres)
        exact hview
      · obtain rfl := Except.ok.inj (hgen.symm.trans hres)
        exact hview
    have hentry : (0, attrs) ∈ adjoutEntries q
        (((s.addKey (defaultPt aid)).setOut q (defaultPt aid) out).adjout (defaultPt aid)) := by
      rw [show ((s.addKey (defaultPt aid)).setOut q (defaultPt aid) out).adjout (defaultPt aid) =
        out.adjout from if_pos rfl]
      exact mem_of_lookup hview
    intro hattached
    refine upDecideDefault_bare hkeep hattrs (hattached q (defaultPt aid) _ hentry haid ?_)
    rw [show (((s.addKey (defaultPt aid)).setOut q (defaultPt aid) out).peers q).role = _ from
      congrArg (·.role) (setOut_params out q), addKey_peers]
    exact hrole

namespace OutputOk

variable {role : PeerId → Role} {s₁ : RdeState} {rib : ℕ} {pt : PtEntry}

theorem attached (h : OutputOk role s) : s.OtcAttached := by
  intro q pt e he haid hrole
  rw [h.role] at hrole
  exact (h.entries pt).entries he haid hrole

/-- A step that only changes RIBs, queues and sessions. -/
theorem ribKeeps (h : OutputOk role s) (hk : RibKeeps OtcFlagged s s') : OutputOk role s' where
  paths := hk.paths h.paths
  entries pt := hk.adjout ▸ h.entries pt
  confId q := (congrArg (·.conf.id) (hk.params q)).trans (h.confId q)
  role q := (congrArg (·.role) (hk.params q)).trans (h.role q)

/-- New entries for a destination. -/
theorem setAdjout (h : OutputOk role s) {arr : List AdjoutPrefix}
    (harr : EntriesAre (OtcFor role pt.aid) arr) : OutputOk role (s.setAdjout pt arr) where
  paths := h.paths
  entries k := by
    show EntriesAre _ (if k = pt then arr else s.adjout k)
    split_ifs with hk
    · rw [hk]
      exact harr
    · exact h.entries k
  confId := h.confId
  role := h.role

theorem collect (h : OutputOk role s) (pt : PtEntry) : OutputOk role (s.collect pt) :=
  h.setAdjout (h.entries pt).collect

theorem setOut (h : OutputOk role s) {out : Out}
    (hout : EntriesAre (OtcFor role pt.aid) out.adjout) :
    OutputOk role (s.setOut q pt out) :=
  (h.setAdjout hout).ribKeeps (RibKeeps.setPeer rfl)

/-- Whatever a peer is told about a listed path. -/
theorem announces (h : OutputOk role s) (hkeep : FilterKeeps cfg.filterOut) {p : Prefix}
    (hp : p ∈ (s.entry rib pt).prefixH) (q : PeerId) :
    Announces (OtcFor role pt.aid) (s.upEnv cfg) (s.peers q).toOutParams p := by
  obtain ⟨hpt, hflag⟩ := h.paths rib pt p hp
  intro attrs hdec haid hrole
  rw [h.confId, ← h.role] at hrole
  exact upDecide_otc hkeep hflag (hpt ▸ haid) hrole hdec

theorem peerGenerateUpdate (h : OutputOk role s) (hkeep : FilterKeeps cfg.filterOut)
    {mode : EvalMode} (hrun : s.peerGenerateUpdate cfg rib pt mode q = .ok s') :
    OutputOk role s' := by
  unfold RdeState.peerGenerateUpdate at hrun
  dsimp only at hrun
  split_ifs at hrun
  · obtain ⟨out, hgen, rfl⟩ := except_map_ok hrun
    refine h.setOut (upGenerate_are (h.entries pt) (fun p hp => ?_) (fun e he p hp => ?_) hgen)
    · refine h.announces hkeep (show p ∈ (s.entry rib pt).prefixH from ?_) q
      unfold prefixChain at hp
      split_ifs at hp
      · exact absurd hp List.not_mem_nil
      · exact (List.takeWhile_sublist _).mem hp
    · obtain ⟨x, -, rfl⟩ := List.mem_map.mp he
      obtain ⟨ptr, -, hfind⟩ := Option.bind_eq_some_iff.mp hp
      exact h.announces hkeep (List.mem_of_find?_eq_some hfind) q
  · obtain rfl := Except.ok.inj hrun
    exact h

theorem generateAll (h : OutputOk role s) (hkeep : FilterKeeps cfg.filterOut) {mode : EvalMode}
    {qs : List PeerId} (hrun : s.generateAll cfg rib pt mode qs = .ok s') : OutputOk role s' := by
  induction qs generalizing s with
  | nil =>
    obtain rfl := Except.ok.inj hrun
    exact h
  | cons q qs ih =>
    obtain ⟨s₁, hgen, hrun⟩ := except_bind_ok hrun
    exact ih (h.peerGenerateUpdate hkeep hgen) hrun

theorem peerProcessUpdates (h : OutputOk role s) (hkeep : FilterKeeps cfg.filterOut)
    (hrun : s.peerProcessUpdates cfg q = .ok s') : OutputOk role s' := by
  unfold RdeState.peerProcessUpdates at hrun
  split at hrun
  · obtain rfl := Except.ok.inj hrun
    exact h
  · next rib pt rest _ =>
    have hpop : OutputOk role (s.setPeer q { s.peers q with ribPq := rest }) :=
      h.ribKeeps (RibKeeps.setPeer rfl)
    dsimp only at hrun
    split at hrun
    · obtain rfl := Except.ok.inj hrun
      exact hpop
    · obtain ⟨s₁, hgen, hrun⟩ := except_bind_ok hrun
      obtain rfl := Except.ok.inj hrun
      have h₁ := (hpop.generateAll hkeep hgen).collect pt
      exact h₁.ribKeeps (RibKeeps.setEntry fun hs => hs rib pt)

/-! ### Dumps -/

theorem dumpDone (h : OutputOk role s) (q : PeerId) (aid : Aid) :
    OutputOk role (s.dumpDone q aid) :=
  h.ribKeeps (RibKeeps.dumpDone s q aid)

theorem dumpUpcall (h : OutputOk role s) (hkeep : FilterKeeps cfg.filterOut)
    (hrun : s.dumpUpcall cfg q rib pt = .ok s') : OutputOk role s' := by
  rcases dumpUpcall_cases hrun with ⟨_, rfl⟩ | ⟨_, s₁, hgen, rfl⟩
  · exact h
  · exact (h.peerGenerateUpdate hkeep hgen).collect pt

theorem blastUpcall (h : OutputOk role s) (q : PeerId) (pt : PtEntry) :
    OutputOk role (s.blastUpcall q pt) := by
  refine OutputOk.collect (h.ribKeeps (RibKeeps.setPeer ?_)) pt
  rfl

theorem dumpCall (h : OutputOk role s) (hkeep : FilterKeeps cfg.filterOut) {ctx : RibContext}
    (hrun : s.dumpCall cfg ctx pt = .ok s') : OutputOk role s' := by
  unfold RdeState.dumpCall at hrun
  split at hrun
  · exact h.dumpUpcall hkeep hrun
  · obtain rfl := Except.ok.inj hrun
    exact h.blastUpcall ctx.peer pt

theorem walk (h : OutputOk role s) (hkeep : FilterKeeps cfg.filterOut) {ctx : RibContext}
    {l : List PtEntry} (hw : Walk cfg ctx l s s') : OutputOk role s' := by
  induction hw with
  | nil s => exact h
  | skip _ _ ih => exact ih h
  | visit _ hcall _ ih => exact ih (h.dumpCall hkeep hcall)

theorem ribDumpR (h : OutputOk role s) (hkeep : FilterKeeps cfg.filterOut) {i n : ℕ}
    (hrun : s.ribDumpR cfg i n = .ok s') : OutputOk role s' := by
  rcases ribDumpR_cases hrun with rfl | ⟨ctx, l₁, l₂, s₁, _, _, hwalk, hend⟩
  · exact h
  · have h₁ := h.walk hkeep hwalk
    have hdumps : ∀ dumps, OutputOk role { s₁ with dumps := dumps } := fun dumps =>
      h₁.ribKeeps (RibKeeps.setDumps s₁ dumps)
    rcases hend with ⟨k, rest, _, _, rfl⟩ | ⟨_, rfl⟩
    · exact hdumps _
    · exact (hdumps _).dumpDone ctx.peer ctx.aid

theorem flowspecDump (h : OutputOk role s) (hkeep : FilterKeeps cfg.filterOut) {l : List PtEntry}
    (hrun : s.flowspecDump cfg q l = .ok s') : OutputOk role s' := by
  induction l generalizing s with
  | nil =>
    obtain rfl := Except.ok.inj hrun
    exact h
  | cons k l ih =>
    obtain ⟨s₁, hk, hrun⟩ := except_bind_ok hrun
    exact ih (h.dumpUpcall hkeep hk) hrun

/-- A default route for a peer that is owed nothing. -/
theorem dumpDefault (h : OutputOk role s) {aid : Aid} (hbare : ¬s.BareDefault cfg q aid)
    (hrun : s.dumpDefault cfg q aid = .ok s') : OutputOk role s' := by
  obtain ⟨out, hgen, rfl⟩ := except_map_ok hrun
  have hkey := h.ribKeeps (RibKeeps.addKey s (defaultPt aid))
  refine hkey.setOut (upGenerateDefault_are (h.entries (defaultPt aid)) ?_ hgen)
  intro hmp attrs hattrs haid hrole
  rw [h.confId, ← h.role] at hrole
  exact absurd ⟨haid, hrole, hmp, Option.isSome_iff_exists.mpr ⟨attrs, hattrs⟩⟩ hbare

/-- `peer_dump` -/
theorem peerDump (h : OutputOk role s) (hkeep : FilterKeeps cfg.filterOut) {aid : Aid}
    (hbare : (s.peers q).exportType = .defaultRoute → ¬s.BareDefault cfg q aid)
    (hrun : s.peerDump cfg q aid = .ok s') : OutputOk role s' := by
  have hquiet : RibKeeps OtcFlagged s (s.throttle q) := RibKeeps.setPeer rfl
  have ht := h.ribKeeps hquiet
  have hexp : ((s.throttle q).peers q).exportType = (s.peers q).exportType :=
    congrArg (·.exportType) (hquiet.params q)
  unfold RdeState.peerDump at hrun
  dsimp only at hrun
  split at hrun
  · obtain rfl := Except.ok.inj hrun
    exact ht.dumpDone q aid
  · next hdefault =>
    obtain ⟨s₁, hdump, rfl⟩ := except_map_ok hrun
    refine (ht.dumpDefault (fun hb => ?_) hdump).dumpDone q aid
    exact hbare (hexp ▸ hdefault) ((bareDefault_congr hquiet.params).mp hb)
  · split_ifs at hrun
    · obtain ⟨s₁, hdump, rfl⟩ := except_map_ok hrun
      exact (ht.flowspecDump hkeep hdump).dumpDone q aid
    · obtain rfl := Except.ok.inj hrun
      exact ht.ribKeeps (RibKeeps.setDumps _ _)

/-! ### Sessions -/

/-- Starting the dumps leaves only routes the role lets out. -/
theorem startDumps (h : OutputOk role s) (hkeep : FilterKeeps cfg.filterOut) {forceSync : Bool}
    {aids : List Aid} (hbare : forceSync = true → (s.peers q).exportType = .defaultRoute →
      ∀ aid ∈ aids, ¬s.BareDefault cfg q aid)
    (hrun : s.startDumps cfg q forceSync aids = .ok s') : OutputOk role s' := by
  induction aids generalizing s with
  | nil =>
    obtain rfl := Except.ok.inj hrun
    exact h
  | cons aid aids ih =>
    rw [RdeState.startDumps] at hrun
    split_ifs at hrun with hmp hsync
    · exact ih h (fun hf he a ha => hbare hf he a (List.mem_cons_of_mem _ ha)) hrun
    · obtain ⟨s₁, hdump, hrun⟩ := except_bind_ok hrun
      have hparams := peerDump_params hdump
      refine ih (h.peerDump hkeep (fun he => hbare hsync he aid List.mem_cons_self) hdump)
        (fun hf he a ha hb => ?_) hrun
      rw [show (s₁.peers q).exportType = _ from congrArg (·.exportType) (hparams q)] at he
      exact hbare hf he a (List.mem_cons_of_mem _ ha) ((bareDefault_congr hparams).mp hb)
    · exact ih (s := s.peerBlast q aid) (h.ribKeeps (RibKeeps.setDumps _ _))
        (fun hf => absurd hf hsync) hrun

theorem withSession (h : OutputOk role s) (q : PeerId) (sup : SessionUp) :
    OutputOk role (s.setPeer q ((s.peers q).withSession sup)) := by
  have hpeer : ∀ p, ((s.setPeer q ((s.peers q).withSession sup)).peers p).conf = (s.peers p).conf ∧
      ((s.setPeer q ((s.peers q).withSession sup)).peers p).role = (s.peers p).role := by
    intro p
    rw [setPeer_peers]
    split_ifs with hp
    · rw [hp]
      exact ⟨rfl, rfl⟩
    · exact ⟨rfl, rfl⟩
  exact ⟨h.paths, h.entries, fun p => (congrArg (·.id) (hpeer p).1).trans (h.confId p),
    fun p => (hpeer p).2.trans (h.role p)⟩

/-- `peer_up` -/
theorem peerUp (h : OutputOk role s) (hkeep : FilterKeeps cfg.filterOut) {sup : SessionUp}
    (hsafe : noBareDefault cfg s (.rde (.up q sup))) (hrun : s.peerUp cfg q sup = .ok s') :
    OutputOk role s' := by
  obtain ⟨s₁, hdumps, rfl⟩ := peerUp_cases hrun
  have hreset : RibKeeps OtcFlagged s (s.resetErr cfg q) := by
    unfold RdeState.resetErr
    split_ifs
    · exact RibKeeps.peerDown s q
    · exact RibKeeps.refl s
  have hq := hreset.params q
  -- what the condition is about is the same before and after the reset
  have hparams : ∀ p, (((s.resetErr cfg q).setPeer q
      (((s.resetErr cfg q).peers q).withSession sup)).peers p).toOutParams =
        ((s.setPeer q ((s.peers q).withSession sup)).peers p).toOutParams := by
    intro p
    rw [setPeer_peers, setPeer_peers]
    split_ifs
    · unfold RdePeer.withSession
      dsimp only
      rw [hq]
    · exact hreset.params p
  have hsync : ((s.resetErr cfg q).peers q).inSync sup = (s.peers q).inSync sup := by
    unfold RdePeer.inSync
    rw [hq]
  have hs₁ : OutputOk role s₁ := by
    refine ((h.ribKeeps hreset).withSession q sup).startDumps hkeep
      (fun hforce hexp aid haid hb => ?_)
      hdumps
    rw [hsync] at hforce
    rw [hparams q, setPeer_peers, if_pos rfl] at hexp
    exact hsafe hexp (by simpa using hforce) aid haid ((bareDefault_congr hparams).mp hb)
  exact hs₁.ribKeeps ⟨id, rfl, fun _ => rfl⟩

/-- Every event keeps the invariant if no default route is generated that lacks the attribute. -/
theorem step (h : OutputOk role s) (hkeep : FilterKeeps cfg.filterOut) {e : OutEvent}
    (hfixed : fixedRoles s e) (hsafe : noBareDefault cfg s e) (hrun : s.outStep cfg e = .ok s') :
    OutputOk role s' := by
  cases e with
  | rde e =>
    cases e with
    | update a => exact h.ribKeeps (RibKeeps.prefixUpdate h.paths hfixed hrun)
    | withdraw rib peer pathId pt =>
      obtain rfl := Except.ok.inj hrun
      exact h.ribKeeps (RibKeeps.prefixWithdraw ..)
    | flush peer aid staletime =>
      obtain rfl := Except.ok.inj hrun
      exact h.ribKeeps (RibKeeps.peerFlush ..)
    | nexthop rib pt p state oldstate =>
      obtain rfl := Except.ok.inj hrun
      exact h.ribKeeps (RibKeeps.evaluateNexthop ..)
    | process q => exact h.peerProcessUpdates hkeep hrun
    | dump i n => exact h.ribDumpR hkeep hrun
    | up q sup => exact h.peerUp hkeep hsafe hrun
    | down q =>
      obtain rfl := Except.ok.inj hrun
      exact h.ribKeeps (RibKeeps.peerDown s q)
    | stale q aid flushall now =>
      obtain rfl := Except.ok.inj hrun
      exact h.ribKeeps (RibKeeps.peerStale ..)
    | sendWithdraws q aid n =>
      obtain rfl := Except.ok.inj hrun
      exact h.ribKeeps (RibKeeps.upDumpWithdraws ..)
    | sendUpdate q aid n =>
      obtain rfl := Except.ok.inj hrun
      exact h.ribKeeps (RibKeeps.upDumpUpdate ..)
  | settings q peer =>
    -- new settings keep the role, by `fixedRoles`
    obtain rfl := Except.ok.inj hrun
    obtain ⟨hid, hrole⟩ := hfixed
    refine ⟨h.paths, h.entries, fun p => ?_, fun p => ?_⟩
    · rw [setPeer_peers]
      split_ifs with hp
      · exact hid.trans hp.symm
      · exact h.confId p
    · rw [setPeer_peers]
      split_ifs with hp
      · exact (hrole.trans (h.role q)).trans (congrArg role hp.symm)
      · exact h.role p
  | flushOut q pt =>
    obtain ⟨out, hout, rfl⟩ := except_map_ok hrun
    exact (h.setOut (withdrawAll_are (h.entries pt) hout)).collect pt
  | reeval rib pt qs =>
    unfold RdeState.outStep RdeState.softreconfigOut at hrun
    dsimp only at hrun
    split at hrun
    · obtain rfl := Except.ok.inj hrun
      exact h
    · obtain ⟨s₁, hgen, rfl⟩ := except_map_ok hrun
      exact (h.generateAll hkeep hgen).collect pt
  | resendDefault q aid => exact h.dumpDefault hsafe hrun
  | redump q aid => exact h.peerDump hkeep hsafe hrun

end OutputOk

theorem RdeState.Empty.outputOk (h : s.Empty cfg) : OutputOk (fun q => (s.peers q).role) s where
  paths rib pt := by
    rw [h.entry]
    exact fun p hp => absurd hp List.not_mem_nil
  entries pt := by
    rw [h.adjout]
    exact fun e he => absurd he List.not_mem_nil
  confId := h.confId
  role _ := rfl

/-- The configuration with the rule sets that are compiled for the peers. -/
def RdeConfig.withRules (cfg : RdeConfig)
    (outRules : ℕ → List (Filter.FilterRule (List Filter.FilterSetElm))) : RdeConfig :=
  { cfg with filterOut := outFilter cfg.localAs outRules }

theorem outStep_eq {e : OutEvent} (h : outStep cfg s e = some s') : s.outStep cfg e = .ok s' := by
  unfold outStep at h
  cases hs : s.outStep cfg e with
  | error err =>
    rw [hs] at h
    cases h
  | ok s₁ =>
    rw [hs] at h
    exact congrArg Except.ok (Option.some.inj h)

/-- All entries carry the attribute, however they got there, unless a default route is generated for
    a neighbor that is owed it. -/
theorem otc_on_output (cfg : RdeConfig)
    (outRules : ℕ → List (Filter.FilterRule (List Filter.FilterSetElm))) {s₀ s : RdeState}
    (h₀ : s₀.Empty (cfg.withRules outRules)) {es : List OutEvent}
    (hrun : Run (outStep (cfg.withRules outRules))
      (fun s e => fixedRoles s e ∧ noBareDefault (cfg.withRules outRules) s e) s₀ es s) :
    s.OtcAttached := by
  have hkeep : FilterKeeps (cfg.withRules outRules).filterOut := outFilter_keeps _ _
  have h : OutputOk (fun q => (s₀.peers q).role) s := by
    refine hrun.invariant (fun s e s' h hok hstep => ?_) h₀.outputOk
    exact h.step hkeep hok.1 hok.2 (outStep_eq hstep)
  exact h.attached

/-! ### A neighbor that gets a default route -/

/-- Rules that allow everything. -/
def allowRules (_ : ℕ) : List (Filter.FilterRule (List Filter.FilterSetElm)) :=
  [{ action := .allow, rdeSet := [] }]

/-- Neighbors towards which the local role is provider. One of them gets a default route. -/
def providerPeer (q : PeerId) : RdePeer where
  conf := { id := q, remoteAs := 65000 + q, localAs := 65000 }
  role := .provider
  exportType := if q = 3 then .defaultRoute else .unset

def providerState : RdeState where
  peers := providerPeer

theorem providerState_empty : providerState.Empty (sampleConfig.withRules allowRules) :=
  ⟨fun _ _ => rfl, rfl, fun _ => rfl, fun _ _ => rfl, fun _ => rfl⟩

/-- A path is announced to the other neighbor. -/
def pathAnnounced : List OutEvent :=
  [.rde (.up 2 (ipv4Session 2 false)), .rde (.update { sampleUpdate with peer := 4 }),
    .rde (.process 4)]

theorem otc_on_output_sample :
    ∃ s, Run (outStep (sampleConfig.withRules allowRules))
        (fun s e => fixedRoles s e ∧ noBareDefault (sampleConfig.withRules allowRules) s e)
        providerState pathAnnounced s ∧
      (adjoutEntries 2 (s.adjout samplePt)).length = 1 ∧ s.OtcAttached := by
  obtain ⟨s, hrun, hentry⟩ := exists_run (outStep (sampleConfig.withRules allowRules))
    (fun s e => fixedRoles s e ∧ noBareDefault (sampleConfig.withRules allowRules) s e)
    providerState pathAnnounced (fun s => (adjoutEntries 2 (s.adjout samplePt)).length = 1)
    (by decide)
  exact ⟨s, hrun, hentry, otc_on_output sampleConfig allowRules providerState_empty hrun⟩

/-- The session with the neighbor comes up, and the default route is sent without the attribute. -/
theorem default_route_sent_bare :
    ∃ s, Run (outStep (sampleConfig.withRules allowRules)) fixedRoles providerState
        [.rde (.up 3 (ipv4Session 3 false))] s ∧ ¬s.OtcAttached := by
  obtain ⟨s, hrun, hrole, e, he, hbare⟩ := exists_run (outStep (sampleConfig.withRules allowRules))
    fixedRoles providerState [.rde (.up 3 (ipv4Session 3 false))]
    (fun s => (s.peers 3).role = .provider ∧
      ∃ e ∈ adjoutEntries 3 (s.adjout (defaultPt .inet)), ¬HasOtc e.2.aspath) (by decide)
  refine ⟨s, hrun, fun h => hbare (h 3 (defaultPt .inet) e he (Or.inl rfl) ?_)⟩
  exact Or.inr (Or.inl hrole)

end Bgpd.Rde
