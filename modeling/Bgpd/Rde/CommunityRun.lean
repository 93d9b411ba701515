import Bgpd.Rde.CommunityArray

/-!
# Runs of Operations on a List of Communities

What the operations of `rde_community.c` do to the entries of the array, one after the other: the
entries stay sorted, no community is there twice, and searching and counting give what a walk over
the entries gives.

## Main results

- `Wf.entries_set`, `Wf.entries_delete`: what is in the list afterwards
- `run_wf`: all lists that come about in a run are sorted
- `run_entries`, `run_communityMatch`: the array is the list of the filters and the parser
- `run_sorted_match_count`: what can be said of them
-/

namespace Bgpd.Rde

open Lib

namespace CommunityArray

open Communities

variable {a b c fc test mask x : Community} {xs : List Community} {comm : CommunityArray}
variable {l n : ℕ} {peer : PeerAs}

/-! ## Setting -/

/-- The community that is looked for has only the type in its flags. -/
theorem forall_mem_bind {α β : Type} {x : Option α} {f : α → Option β} {p : β → Prop}
    (h : ∀ a, ∀ r ∈ f a, p r) : ∀ r ∈ x >>= f, p r := by
  intro r hr
  obtain ⟨a, -, hf⟩ := Option.bind_eq_some_iff.mp hr
  exact h a r hf

theorem forall_mem_ite {α : Type} {c : Prop} [Decidable c] {x y : Option α} {p : α → Prop}
    (hx : ∀ r ∈ x, p r) (hy : ∀ r ∈ y, p r) : ∀ r ∈ if c then x else y, p r := by
  split_ifs
  · exact hx
  · exact hy

/-- Every expansion has the type of the community. -/
theorem fc2c_flags {m : Bool} {peer : Option PeerAs} (h : fc2c fc peer m = some (test, mask)) :
    test.flags = fc.type := by
  suffices hall : ∀ r ∈ fc2c fc peer m, r.1.flags = fc.type from hall (test, mask) h
  have hnone : ∀ r ∈ (none : Option (Community × Community)), r.1.flags = fc.type := by simp
  have hsome : ∀ (d₁ d₂ d₃ : ℕ) (full : Community),
      ∀ r ∈ some ((⟨fc.type, d₁, d₂, d₃⟩ : Community), full), r.1.flags = fc.type := by simp
  unfold fc2c
  apply forall_mem_ite
  · exact forall_mem_bind fun _ => forall_mem_bind fun _ => forall_mem_ite hnone (hsome _ _ _ _)
  apply forall_mem_ite
  · exact forall_mem_bind fun _ => forall_mem_bind fun _ => forall_mem_bind fun _ => hsome _ _ _ _
  apply forall_mem_ite _ hnone
  apply forall_mem_ite
  · exact forall_mem_ite (hsome _ _ _ _) hnone
  apply forall_mem_ite
  · exact forall_mem_ite hnone (hsome _ _ _ _)
  apply forall_mem_ite
  · exact forall_mem_ite (hsome _ _ _ _) hnone
  apply forall_mem_ite
  · exact forall_mem_bind fun _ => forall_mem_bind fun _ => hsome _ _ _ _
  apply forall_mem_ite
  · exact forall_mem_bind fun _ => forall_mem_bind fun _ => forall_mem_ite hnone (hsome _ _ _ _)
  · exact hsome _ _ _ _

theorem extFits_flags (h : Filter.extFits a = some b) : b.flags = a.flags := by
  unfold Filter.extFits at h
  dsimp only at h
  split_ifs at h <;> simp only [Option.some.injEq] at h <;> rw [← h]

/-- The community that is put into the list; `none` if nothing is. -/
def setValue (fc : Community) (peer : PeerAs) : Option Community :=
  if fc.flags / 256 = 0 then some fc
  else (fc2c fc (some peer) false).bind fun x => Filter.extFits x.1

theorem communitySet_eq (comm : CommunityArray) (fc : Community) (peer : PeerAs) :
    comm.communitySet fc peer = match setValue fc peer with
      | none => (comm, false)
      | some set => (comm.insert set, true) := by
  unfold communitySet setValue
  split_ifs <;> rfl

theorem known_setValue {fc : FilterCommunity} (h : setValue fc.community peer = some c) :
    Known c := by
  unfold setValue at h
  split_ifs at h with hexact
  · cases h
    exact known_of_exact fc hexact
  · obtain ⟨⟨test, mask⟩, hexpand, hfits⟩ := Option.bind_eq_some_iff.mp h
    have hflags : c.flags = fc.community.type :=
      (extFits_flags hfits).trans (fc2c_flags hexpand)
    unfold Known
    rw [hflags]
    exact fc.known

theorem Wf.communitySet (h : comm.Wf) (fc : FilterCommunity) (peer : PeerAs) :
    (comm.communitySet fc.community peer).1.Wf := by
  rw [communitySet_eq]
  cases hset : setValue fc.community peer with
  | none => exact h
  | some set => exact h.insert (known_setValue hset)

/-- `community_set` on the array is the one on lists. -/
theorem Wf.entries_set (h : comm.Wf) (fc : Community) (peer : PeerAs) :
    (comm.communitySet fc peer).1.entries = Filter.communitySet comm.entries fc peer := by
  unfold CommunityArray.communitySet Filter.communitySet
  split_ifs
  · exact h.entries_insert fc
  · cases (fc2c fc (some peer) false).bind fun x => Filter.extFits x.1 with
    | none => rfl
    | some set => exact h.entries_insert set

/-! ## Deletion -/

theorem eraseSlot_spec (hslots : comm.communities.length = comm.size)
    (hfits : comm.nentries ≤ comm.size) (hl : l < comm.nentries) :
    (comm.eraseSlot l).communities.length = (comm.eraseSlot l).size ∧
      (comm.eraseSlot l).nentries ≤ (comm.eraseSlot l).size ∧
      (comm.eraseSlot l).entries = comm.entries.eraseIdx l := by
  refine ⟨?_, Nat.le_trans (Nat.sub_le _ 1) hfits, ?_⟩
  · exact (length_memmove (by omega) (by omega)).trans hslots
  · exact take_memmove_erase hl (by omega)

/-- The loop takes out what matches behind slot `l`, and leaves the entries before it alone. -/
theorem deleteLoop_spec (test mask : Community) (n l : ℕ) (comm : CommunityArray)
    (hslots : comm.communities.length = comm.size) (hfits : comm.nentries ≤ comm.size)
    (hn : l + n = comm.nentries) :
    (deleteLoop test mask n l comm).communities.length = (deleteLoop test mask n l comm).size ∧
      (deleteLoop test mask n l comm).nentries ≤ (deleteLoop test mask n l comm).size ∧
      (deleteLoop test mask n l comm).entries = comm.entries.take l ++
        (comm.entries.drop l).filter fun c => maskMatch c test mask ≠ 0 := by
  have hlength : comm.entries.length = comm.nentries := by
    rw [entries, List.length_take, hslots]
    exact Nat.min_eq_left hfits
  induction n generalizing l comm with
  | zero =>
    rw [List.take_of_length_le (by omega), List.drop_eq_nil_of_le (by omega)]
    exact ⟨hslots, hfits, by simp [deleteLoop]⟩
  | succ n ih =>
    have hl : l < comm.entries.length := by omega
    have hslot : comm.communities[l]? = some comm.entries[l] := by
      rw [← List.getElem?_eq_getElem hl, entries, List.getElem?_take_of_lt (by omega)]
    have hdrop : comm.entries.drop l = comm.entries[l] :: comm.entries.drop (l + 1) :=
      List.drop_eq_getElem_cons hl
    unfold deleteLoop
    simp only [hslot]
    split_ifs with hmatch
    -- the entry goes, and the loop looks at the same slot again
    · obtain ⟨hslots', hfits', herase⟩ := eraseSlot_spec hslots hfits (l := l) (by omega)
      have hnentries : (comm.eraseSlot l).nentries = comm.nentries - 1 := rfl
      have hrest := ih l (comm.eraseSlot l) hslots' hfits' (by omega)
        (by rw [herase, List.length_eraseIdx_of_lt hl]; omega)
      refine ⟨hrest.1, hrest.2.1, hrest.2.2.trans ?_⟩
      rw [herase, List.take_eraseIdx_eq_take_of_le comm.entries l l (Nat.le_refl l),
        List.eraseIdx_eq_take_drop_succ, List.drop_append_of_le_length (by simp; omega),
        hdrop, List.filter_cons_of_neg (by simpa using hmatch)]
      simp
    -- the entry stays
    · have hrest := ih (l + 1) comm hslots hfits (by omega) hlength
      refine ⟨hrest.1, hrest.2.1, hrest.2.2.trans ?_⟩
      rw [hdrop, List.filter_cons_of_pos (by simpa using hmatch),
        List.take_succ_eq_append_getElem hl,
        List.append_assoc, List.singleton_append]

/-- Of a sorted list the community that compares equal is taken out with one slot. -/
theorem eraseIdx_bsearch (hsorted : xs.Pairwise Before) (h : bsearch (fastMatch fc) xs = some l) :
    l < xs.length ∧ xs.eraseIdx l = xs.filter fun c => fastMatch fc c ≠ 0 := by
  have hasc := ascending_fastMatch fc hsorted
  obtain ⟨c, hc, hzero⟩ := (bsearch_eq_some_iff hasc).mp h
  obtain ⟨hl, hget⟩ := List.getElem?_eq_some_iff.mp hc
  have hother : ∀ i (y : Community), xs[i]? = some y → i ≠ l → fastMatch fc y ≠ 0 := by
    intro i y hy hne heq
    have := (bsearch_eq_some_iff hasc).mpr ⟨y, hy, heq⟩
    exact hne (Option.some.inj (this.symm.trans h))
  have hbefore : ∀ y ∈ xs.take l, fastMatch fc y ≠ 0 := by
    intro y hy
    obtain ⟨i, hi⟩ := List.getElem?_of_mem hy
    have hlt : i < l := by
      have := (List.getElem?_eq_some_iff.mp hi).1
      rw [List.length_take] at this
      omega
    rw [List.getElem?_take_of_lt hlt] at hi
    exact hother i y hi (by omega)
  have hbehind : ∀ y ∈ xs.drop (l + 1), fastMatch fc y ≠ 0 := by
    intro y hy
    obtain ⟨i, hi⟩ := List.getElem?_of_mem hy
    rw [List.getElem?_drop] at hi
    exact hother _ y hi (by omega)
  refine ⟨hl, ?_⟩
  have hsplit : xs = xs.take l ++ c :: xs.drop (l + 1) := by
    rw [← hget, ← List.drop_eq_getElem_cons hl, List.take_append_drop]
  conv_rhs => rw [hsplit]
  rw [List.eraseIdx_eq_take_drop_succ, List.filter_append,
    List.filter_eq_self.mpr (by simpa using hbefore),
    List.filter_cons_of_neg (by simpa using hzero),
    List.filter_eq_self.mpr (by simpa using hbehind)]

/-- `community_delete` leaves what is not asked for. -/
theorem delete_spec (h : comm.Wf) (fc : FilterCommunity) (peer : PeerAs) :
    (comm.communityDelete fc.community peer).communities.length =
        (comm.communityDelete fc.community peer).size ∧
      (comm.communityDelete fc.community peer).nentries ≤
        (comm.communityDelete fc.community peer).size ∧
      (comm.communityDelete fc.community peer).entries.Sublist comm.entries ∧
      ∀ c, c ∈ (comm.communityDelete fc.community peer).entries ↔
        c ∈ comm.entries ∧ ¬ Asked fc.community (some peer) c := by
  unfold CommunityArray.communityDelete Asked
  by_cases hempty : comm.nentries = 0
  · have hnil : comm.entries = [] := by simp [entries, hempty]
    rw [if_pos hempty]
    exact ⟨h.slots, h.fits, List.Sublist.refl _, by simp [hnil]⟩
  · rw [if_neg hempty]
    split_ifs with hexact
    -- an exact value: `bsearch` finds it, and it occurs once at most
    · have hfc := known_of_exact fc hexact
      cases hsearch : bsearch (fastMatch fc.community) comm.entries with
      | none =>
        refine ⟨h.slots, h.fits, List.Sublist.refl _, ?_⟩
        intro c
        refine ⟨fun hc => ⟨hc, ?_⟩, fun hc => hc.1⟩
        rintro rfl
        have hsome := (bsearch_isSome_iff (ascending_fastMatch fc.community h.sorted)).mpr
          ⟨_, hc, fastMatch_self _⟩
        simp [hsearch] at hsome
      | some l =>
        obtain ⟨hl, herase⟩ := eraseIdx_bsearch h.sorted hsearch
        rw [h.length_entries] at hl
        obtain ⟨hslots, hfits, hentries⟩ := eraseSlot_spec h.slots h.fits hl
        refine ⟨hslots, hfits, ?_, ?_⟩
        · rw [hentries]
          exact List.eraseIdx_sublist _ _
        · intro c
          dsimp only
          rw [hentries, herase]
          simp only [List.mem_filter, decide_eq_true_eq]
          refine and_congr_right fun hc => not_congr ?_
          constructor
          · intro heq
            exact (hfc.eq_of_fastMatch (h.known c hc) heq).symm
          · rintro rfl
            exact fastMatch_self _
    -- a pattern: the loop removes all that match
    · cases hexpand : fc2c fc.community (some peer) true with
      | none =>
        exact ⟨h.slots, h.fits, List.Sublist.refl _, by simp⟩
      | some r =>
        obtain ⟨test, mask⟩ := r
        obtain ⟨hslots, hfits, hentries⟩ := deleteLoop_spec test mask comm.nentries 0 comm h.slots
          h.fits (Nat.zero_add _)
        rw [List.take_zero, List.nil_append, List.drop_zero] at hentries
        refine ⟨hslots, hfits, ?_, ?_⟩
        · rw [hentries]
          exact List.filter_sublist
        · intro c
          dsimp only
          rw [hentries]
          simp [maskMatch_eq_zero_iff]

theorem Wf.communityDelete (h : comm.Wf) (fc : FilterCommunity) (peer : PeerAs) :
    (comm.communityDelete fc.community peer).Wf := by
  obtain ⟨hslots, hfits, hsub, hmem⟩ := delete_spec h fc peer
  exact ⟨hslots, hfits, h.sorted.sublist hsub, fun c hc => h.known c ((hmem c).mp hc).1⟩

/-- Two sorted lists of the same communities are the same. -/
theorem eq_of_mem_iff {ys : List Community} (hxs : xs.Pairwise Before) (hys : ys.Pairwise Before)
    (h : ∀ c, c ∈ xs ↔ c ∈ ys) : xs = ys := by
  have hirrefl : ∀ a : Community, ¬ Before a a := fun a ha => by simp [Before] at ha
  have hnodup : ∀ {zs : List Community}, zs.Pairwise Before → zs.Nodup := by
    intro zs hzs
    apply hzs.imp
    rintro a _ hab rfl
    exact hirrefl a hab
  have hperm : xs.Perm ys := (List.perm_ext_iff_of_nodup (hnodup hxs) (hnodup hys)).mpr h
  apply hperm.eq_of_pairwise _ hxs hys
  intro a b _ _ hab hba
  exact absurd (hab.trans hba) (hirrefl a)

/-- Where a property holds once only, taking out the first element with it takes out all of them. -/
theorem eraseP_eq_filter {p : Community → Bool}
    (h : xs.Pairwise fun x y => p x = true → p y = false) :
    xs.eraseP p = xs.filter fun c => !p c := by
  induction xs with
  | nil => rfl
  | cons x rest ih =>
    obtain ⟨hx, hrest⟩ := List.pairwise_cons.mp h
    cases hp : p x with
    | true =>
      have hkeep : ∀ y ∈ rest, (!p y) = true := fun y hy => by simp [hx y hy hp]
      rw [List.eraseP_cons_of_pos hp, List.filter_cons_of_neg (by simp [hp]),
        List.filter_eq_self.mpr hkeep]
    | false =>
      rw [List.eraseP_cons_of_neg (by simp [hp]), List.filter_cons_of_pos (by simp [hp]), ih hrest]

/-- `community_delete` on the array is the one on lists. -/
theorem Wf.entries_delete (h : comm.Wf) (fc : FilterCommunity) (peer : PeerAs) :
    (comm.communityDelete fc.community peer).entries =
      Filter.communityDelete comm.entries fc.community peer := by
  obtain ⟨-, -, hsub, hmem⟩ := delete_spec h fc peer
  -- both lists are what is left of `comm`, so their elements decide
  have hlist : (Filter.communityDelete comm.entries fc.community peer).Sublist comm.entries := by
    unfold Filter.communityDelete
    split_ifs
    · exact List.eraseP_sublist
    · cases fc2c fc.community (some peer) true with
      | none => exact List.Sublist.refl _
      | some r => exact List.filter_sublist
  apply eq_of_mem_iff (h.sorted.sublist hsub) (h.sorted.sublist hlist)
  intro c
  rw [hmem]
  unfold Filter.communityDelete Asked
  split_ifs with hexact
  -- the exact value is found by its key alone
  · have hfc := known_of_exact fc hexact
    rw [eraseP_eq_filter]
    · simp only [List.mem_filter, Bool.not_eq_true', decide_eq_false_iff_not]
      refine and_congr_right fun hc => not_congr ?_
      constructor
      · rintro rfl
        exact fastMatch_self _
      · intro heq
        exact (hfc.eq_of_fastMatch (h.known c hc) heq).symm
    · apply (ascending_fastMatch fc.community h.sorted).imp
      intro a b hab ha
      have := hab (le_of_eq (of_decide_eq_true ha))
      simpa using this.ne
  · cases hexpand : fc2c fc.community (some peer) true with
    | none => simp
    | some r =>
      obtain ⟨test, mask⟩ := r
      simp [maskMatch_eq_zero_iff]

/-! ## Communities of attributes -/

theorem Wf.addBasic (buf : List UInt8) (h : comm.Wf) :
    (comm.addBasic buf).Wf ∧ (comm.addBasic buf).entries = Parse.addBasic buf comm.entries := by
  induction buf, comm using addBasic.induct with
  | case1 comm a b x y buf ih =>
    have hrest := ih (h.insert (.inl rfl))
    rw [h.entries_insert] at hrest
    exact hrest
  | case2 buf comm hshort =>
    rw [CommunityArray.addBasic, Parse.addBasic]
    · exact ⟨h, rfl⟩
    · exact hshort
    · exact hshort

theorem Wf.addLarge (n : ℕ) (buf : List UInt8) (h : comm.Wf) :
    (comm.addLarge n buf).Wf ∧
      (comm.addLarge n buf).entries = Parse.addLarge n buf comm.entries := by
  induction n generalizing buf comm with
  | zero => exact ⟨h, rfl⟩
  | succ n ih =>
    unfold CommunityArray.addLarge Parse.addLarge
    rw [← h.entries_insert]
    exact ih (buf.drop 12) (h.insert (.inr (.inr rfl)))

theorem Wf.addExt (ebgp : Bool) (n : ℕ) (buf : List UInt8) (h : comm.Wf) :
    (comm.addExt ebgp n buf).Wf ∧
      (comm.addExt ebgp n buf).entries = Parse.addExt ebgp n buf comm.entries := by
  induction n generalizing buf comm with
  | zero => exact ⟨h, rfl⟩
  | succ n ih =>
    have hparse : Parse.addExt ebgp (n + 1) buf comm.entries = Parse.addExt ebgp n (buf.drop 8)
        (if ebgp ∧ (Parse.beNat (buf.take 8) / 2 ^ 56).testBit 6 then comm.entries
          else Filter.insertCommunity (Parse.extCommunity (Parse.beNat (buf.take 8)))
            comm.entries) := rfl
    rw [CommunityArray.addExt, hparse]
    split_ifs
    · exact ih (buf.drop 8) h
    · rw [← h.entries_insert]
      exact ih (buf.drop 8) (h.insert (.inr (.inl rfl)))

theorem entries_copy (comm : CommunityArray) : comm.copy.entries = comm.entries := by
  unfold copy entries
  dsimp only
  rw [List.take_take, Nat.min_self]

section

variable (h : comm.Wf) {flags : UInt8} {ebgp : Bool} {buf : List UInt8} {after : CommunityArray}

include h

theorem Wf.communityAdd (hadd : comm.communityAdd flags buf = some after) :
    after.Wf ∧ Parse.communityAdd buf comm.entries = some after.entries := by
  unfold CommunityArray.communityAdd at hadd
  unfold Parse.communityAdd
  split_ifs at hadd ⊢ with hlen
  all_goals
    simp only [Option.some.injEq] at hadd ⊢
    subst hadd
  · have hset : Wf { comm with partialBasic := true } := ⟨h.slots, h.fits, h.sorted, h.known⟩
    exact ⟨(hset.addBasic buf).1, (hset.addBasic buf).2.symm⟩
  · exact ⟨(h.addBasic buf).1, (h.addBasic buf).2.symm⟩

theorem Wf.communityLargeAdd (hadd : comm.communityLargeAdd flags buf = some after) :
    after.Wf ∧ Parse.communityLargeAdd buf comm.entries = some after.entries := by
  unfold CommunityArray.communityLargeAdd at hadd
  unfold Parse.communityLargeAdd
  split_ifs at hadd ⊢ with hlen
  all_goals
    simp only [Option.some.injEq] at hadd ⊢
    subst hadd
  · have hset : Wf { comm with partialLarge := true } := ⟨h.slots, h.fits, h.sorted, h.known⟩
    exact ⟨(hset.addLarge _ buf).1, (hset.addLarge _ buf).2.symm⟩
  · exact ⟨(h.addLarge _ buf).1, (h.addLarge _ buf).2.symm⟩

theorem Wf.communityExtAdd (hadd : comm.communityExtAdd flags ebgp buf = some after) :
    after.Wf ∧ Parse.communityExtAdd ebgp buf comm.entries = some after.entries := by
  unfold CommunityArray.communityExtAdd at hadd
  unfold Parse.communityExtAdd
  split_ifs at hadd ⊢ with hlen
  all_goals
    simp only [Option.some.injEq] at hadd ⊢
    subst hadd
  · have hset : Wf { comm with partialExt := true } := ⟨h.slots, h.fits, h.sorted, h.known⟩
    exact ⟨(hset.addExt ebgp _ buf).1, (hset.addExt ebgp _ buf).2.symm⟩
  · exact ⟨(h.addExt ebgp _ buf).1, (h.addExt ebgp _ buf).2.symm⟩

theorem Wf.copy : comm.copy.Wf where
  slots := h.length_entries
  fits := Nat.le_refl _
  sorted := entries_copy comm ▸ h.sorted
  known := entries_copy comm ▸ h.known

end

/-! ## Runs -/

/-- What can be done with a list of communities. -/
inductive CommunityOp where
  | add (flags : UInt8) (buf : List UInt8)
  | largeAdd (flags : UInt8) (buf : List UInt8)
  | extAdd (flags : UInt8) (ebgp : Bool) (buf : List UInt8)
  | set (fc : FilterCommunity) (peer : PeerAs)
  | delete (fc : FilterCommunity) (peer : PeerAs)
  | copy

/-- One operation. A malformed attribute changes nothing. -/
def apply (comm : CommunityArray) : CommunityOp → CommunityArray
  | .add flags buf => (comm.communityAdd flags buf).getD comm
  | .largeAdd flags buf => (comm.communityLargeAdd flags buf).getD comm
  | .extAdd flags ebgp buf => (comm.communityExtAdd flags ebgp buf).getD comm
  | .set fc peer => (comm.communitySet fc.community peer).1
  | .delete fc peer => comm.communityDelete fc.community peer
  | .copy => comm.copy

/-- A run of operations on an empty list. -/
def run (ops : List CommunityOp) : CommunityArray := ops.foldl apply {}

/-- Every operation keeps the array sorted and without duplicates. -/
theorem Wf.apply (h : comm.Wf) (op : CommunityOp) : (comm.apply op).Wf := by
  cases op with
  | add flags buf =>
    unfold CommunityArray.apply
    dsimp only
    cases hadd : comm.communityAdd flags buf with
    | none => exact h
    | some after => exact (h.communityAdd hadd).1
  | largeAdd flags buf =>
    unfold CommunityArray.apply
    dsimp only
    cases hadd : comm.communityLargeAdd flags buf with
    | none => exact h
    | some after => exact (h.communityLargeAdd hadd).1
  | extAdd flags ebgp buf =>
    unfold CommunityArray.apply
    dsimp only
    cases hadd : comm.communityExtAdd flags ebgp buf with
    | none => exact h
    | some after => exact (h.communityExtAdd hadd).1
  | set fc peer => exact h.communitySet fc peer
  | delete fc peer => exact h.communityDelete fc peer
  | copy => exact h.copy

/-- All lists that come about are sorted. -/
theorem run_wf (ops : List CommunityOp) : (run ops).Wf := by
  have hfold : ∀ (ops : List CommunityOp) (comm : CommunityArray), comm.Wf →
      (ops.foldl CommunityArray.apply comm).Wf := by
    intro ops
    induction ops with
    | nil => exact fun comm h => h
    | cons op rest ih => exact fun comm h => ih (comm.apply op) (h.apply op)
  exact hfold ops {} wf_empty

/-- The operation on a list, as the filters and the parser have it. -/
def applyList (xs : List Community) : CommunityOp → List Community
  | .add _ buf => (Parse.communityAdd buf xs).getD xs
  | .largeAdd _ buf => (Parse.communityLargeAdd buf xs).getD xs
  | .extAdd _ ebgp buf => (Parse.communityExtAdd ebgp buf xs).getD xs
  | .set fc peer => Filter.communitySet xs fc.community peer
  | .delete fc peer => Filter.communityDelete xs fc.community peer
  | .copy => xs

/-- An operation does to the entries of the array what it does to a list. -/
theorem Wf.entries_apply (h : comm.Wf) (op : CommunityOp) :
    (comm.apply op).entries = applyList comm.entries op := by
  cases op with
  | add flags buf =>
    unfold CommunityArray.apply applyList
    dsimp only
    cases hadd : comm.communityAdd flags buf with
    | some after =>
      rw [(h.communityAdd hadd).2]
      rfl
    | none =>
      -- both refuse the same lengths
      unfold CommunityArray.communityAdd at hadd
      unfold Parse.communityAdd
      split_ifs at hadd ⊢
      rfl
  | largeAdd flags buf =>
    unfold CommunityArray.apply applyList
    dsimp only
    cases hadd : comm.communityLargeAdd flags buf with
    | some after =>
      rw [(h.communityLargeAdd hadd).2]
      rfl
    | none =>
      unfold CommunityArray.communityLargeAdd at hadd
      unfold Parse.communityLargeAdd
      split_ifs at hadd ⊢
      rfl
  | extAdd flags ebgp buf =>
    unfold CommunityArray.apply applyList
    dsimp only
    cases hadd : comm.communityExtAdd flags ebgp buf with
    | some after =>
      rw [(h.communityExtAdd hadd).2]
      rfl
    | none =>
      unfold CommunityArray.communityExtAdd at hadd
      unfold Parse.communityExtAdd
      split_ifs at hadd ⊢
      rfl
  | set fc peer => exact h.entries_set fc.community peer
  | delete fc peer => exact h.entries_delete fc peer
  | copy => exact entries_copy comm

/-- In every run the entries of the array are the list that the same run makes of lists. -/
theorem run_entries (ops : List CommunityOp) : (run ops).entries = ops.foldl applyList [] := by
  have hfold : ∀ (ops : List CommunityOp) (comm : CommunityArray), comm.Wf →
      (ops.foldl CommunityArray.apply comm).entries = ops.foldl applyList comm.entries := by
    intro ops
    induction ops with
    | nil => exact fun comm h => rfl
    | cons op rest ih =>
      intro comm h
      rw [List.foldl_cons, List.foldl_cons, ← h.entries_apply op]
      exact ih (comm.apply op) (h.apply op)
  exact hfold ops {} wf_empty

/-- What the filters find in the list is found in the array. -/
theorem run_communityMatch (ops : List CommunityOp) (fc : Community) (peer : Option PeerAs) :
    (run ops).communityMatch fc peer =
      Communities.communityMatch (ops.foldl applyList []) fc peer := by
  rw [(run_wf ops).communityMatch_eq, run_entries]

/-- In every run the array is sorted without duplicates and `nentries` is its length. Searching
    finds what a walk over all entries finds: a community that is expanded is compared under its
    mask, one with nothing to expand as it is. Counting gives the number of each type. -/
theorem run_sorted_match_count (ops : List CommunityOp) :
    (run ops).entries.Pairwise Before ∧ (run ops).entries.length = (run ops).nentries ∧
      (∀ (fc : FilterCommunity) (peer : Option PeerAs),
        (run ops).communityMatch fc.community peer = true ↔
          ∃ c ∈ (run ops).entries, Asked fc.community peer c) ∧
      ∀ type, type = Community.typeBasic ∨ type = Community.typeExt ∨ type = Community.typeLarge →
        (run ops).communityCount type = (run ops).entries.countP fun c => c.type = type := by
  have h := run_wf ops
  exact ⟨h.sorted, h.length_entries, h.communityMatch_iff, fun type => h.communityCount_eq⟩

/-- The search on the fast path is not the search on the slow path: a route target of a two octet
    AS is not found in a list that has it with the AS in four octets, which is the same community
    under the mask. -/
theorem exact_ext_not_masked :
    ∃ (ops : List CommunityOp) (fc : FilterCommunity) (test mask : Community),
      fc2c fc.community none true = some (test, mask) ∧
      (∃ c ∈ (run ops).entries, MaskEq c test mask) ∧
      (run ops).communityMatch fc.community none = false := by
  refine ⟨[.extAdd 0xc0 false [0x02, 0x02, 0, 0, 0, 1, 0, 2]], ⟨⟨16, 1, 2, 0x0002⟩, ?_⟩,
    ⟨16, 1, 2, 0x0002⟩, ⟨uint32Max, uint32Max, uint32Max, 0xfffffdff⟩, ?_, ?_, ?_⟩
  · decide
  · decide
  · exact ⟨⟨16, 1, 2, 0x0202⟩, by decide +kernel, by unfold MaskEq; decide⟩
  · decide +kernel

end CommunityArray

end Bgpd.Rde
