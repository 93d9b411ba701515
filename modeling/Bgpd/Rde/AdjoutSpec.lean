import Bgpd.Lib.AssocList
import Bgpd.Rde.Adjout

/-!
# What the Adj-RIB-Out Operations Do

The entries a peer has for a destination form a finite map from path ids to attributes,
`adjoutView`. This module says how each operation of `Bgpd.Rde.Adjout` changes the map of
its peer, that the maps of the other peers stay as they are, and that the shared array stays
well formed.

## Main results

- `adjoutView_link`, `adjoutView_unlink`, with `AdjoutWf.link`, `AdjoutWf.unlink`
- `adjoutPrefixGet_some`, `adjoutPrefixGet_none`: the search is right
- `adjoutPrefixes_entries`: the loop over the entries of a peer finds all of them
-/

namespace Bgpd.Rde

open Bgpd.Lib

variable {q q' : PeerId} {arr l r : List AdjoutPrefix} {p : AdjoutPrefix} {id id' i : ℕ}
  {attrs : AdjoutAttr}

/-! ## The map of a peer -/

/-- The attributes a peer has for a path id. -/
def adjoutView (q : PeerId) (arr : List AdjoutPrefix) (id : ℕ) : Option AdjoutAttr :=
  (adjoutEntries q arr).lookup id

/-- The entry that one element of the array is for a peer. -/
def AdjoutPrefix.entry (q : PeerId) (p : AdjoutPrefix) : Option (ℕ × AdjoutAttr) :=
  if q ∈ p.peermap then p.attrs.map fun a => (p.pathIdTx, a) else none

theorem adjoutEntries_eq (q : PeerId) (arr : List AdjoutPrefix) :
    adjoutEntries q arr = arr.filterMap (AdjoutPrefix.entry q) := rfl

@[simp] theorem adjoutEntries_nil : adjoutEntries q [] = [] := rfl

@[simp] theorem adjoutEntries_append :
    adjoutEntries q (l ++ r) = adjoutEntries q l ++ adjoutEntries q r := by
  simp [adjoutEntries_eq]

theorem adjoutEntries_cons_some {e : ℕ × AdjoutAttr} (h : p.entry q = some e) :
    adjoutEntries q (p :: arr) = e :: adjoutEntries q arr := by
  simp [adjoutEntries_eq, h]

theorem adjoutEntries_cons_none (h : p.entry q = none) :
    adjoutEntries q (p :: arr) = adjoutEntries q arr := by
  simp [adjoutEntries_eq, h]

theorem AdjoutPrefix.entry_some (hq : q ∈ p.peermap) (ha : p.attrs = some attrs) :
    p.entry q = some (p.pathIdTx, attrs) := by
  simp [AdjoutPrefix.entry, hq, ha]

theorem AdjoutPrefix.entry_none (hq : q ∉ p.peermap) : p.entry q = none := by
  simp [AdjoutPrefix.entry, hq]

theorem AdjoutPrefix.entry_fst {e : ℕ × AdjoutAttr} (h : p.entry q = some e) :
    e.1 = p.pathIdTx := by
  unfold AdjoutPrefix.entry at h
  split at h
  · obtain ⟨a, _, rfl⟩ := Option.map_eq_some_iff.mp h
    rfl
  · cases h

/-- The array is sorted by path id, no peer has two entries with one path id, and an element
    that is for some peer has attributes. -/
structure AdjoutWf (arr : List AdjoutPrefix) : Prop where
  sorted : arr.Pairwise (fun a b => a.pathIdTx ≤ b.pathIdTx)
  nodup : ∀ q, ((adjoutEntries q arr).map (·.1)).Nodup
  attrs : ∀ p ∈ arr, p.peermap ≠ [] → p.attrs.isSome

theorem AdjoutWf.nil : AdjoutWf [] where
  sorted := List.Pairwise.nil
  nodup q := by simp
  attrs p hp := by cases hp

theorem AdjoutWf.keysSorted (h : AdjoutWf arr) (q : PeerId) : KeysSorted (adjoutEntries q arr) := by
  have hle : (adjoutEntries q arr).Pairwise (fun a b => a.1 ≤ b.1) := by
    rw [adjoutEntries_eq, List.pairwise_filterMap]
    refine h.sorted.imp fun hab a ha b hb => ?_
    rw [AdjoutPrefix.entry_fst ha, AdjoutPrefix.entry_fst hb]
    exact hab
  have hne : (adjoutEntries q arr).Pairwise (fun a b => a.1 ≠ b.1) :=
    List.pairwise_map.mp (h.nodup q)
  exact (hle.and hne).imp fun hab => lt_of_le_of_ne hab.1 hab.2

/-- The map determines the list of entries. -/
theorem AdjoutWf.entries_ext {arr' : List AdjoutPrefix} (h : AdjoutWf arr) (h' : AdjoutWf arr')
    (heq : ∀ id, adjoutView q arr id = adjoutView q' arr' id) :
    adjoutEntries q arr = adjoutEntries q' arr' :=
  (h.keysSorted q).ext (h'.keysSorted q') heq

theorem adjoutView_eq_none_iff :
    adjoutView q arr id = none ↔ ∀ e ∈ adjoutEntries q arr, e.1 ≠ id := by
  refine ⟨fun h e he heq => ?_, lookup_eq_none⟩
  have hsome : (adjoutEntries q arr).lookup id ≠ none := by
    rw [Ne, List.lookup_eq_none_iff]
    intro hne
    simpa [heq] using hne e he
  exact hsome h

theorem AdjoutWf.exists_attrs (h : AdjoutWf arr) (hp : p ∈ arr) (hq : q ∈ p.peermap) :
    ∃ a, p.attrs = some a :=
  Option.isSome_iff_exists.mp (h.attrs p hp (List.ne_nil_of_mem hq))

/-- What a peer has in the middle of an array. -/
theorem AdjoutWf.entries_middle (h : AdjoutWf (l ++ p :: r)) (hq : q ∈ p.peermap) :
    ∃ a, p.attrs = some a ∧
      adjoutEntries q (l ++ p :: r) =
        adjoutEntries q l ++ (p.pathIdTx, a) :: adjoutEntries q r := by
  obtain ⟨a, ha⟩ := h.exists_attrs (p := p) (by simp) hq
  exact ⟨a, ha, by rw [adjoutEntries_append, adjoutEntries_cons_some (p.entry_some hq ha)]⟩

theorem AdjoutWf.fst_ne (h : AdjoutWf (l ++ p :: r)) (hq : q ∈ p.peermap) :
    (∀ e ∈ adjoutEntries q l, e.1 ≠ p.pathIdTx) ∧ (∀ e ∈ adjoutEntries q r, e.1 ≠ p.pathIdTx) := by
  obtain ⟨a, _, hmid⟩ := h.entries_middle hq
  have hnd := h.nodup q
  rw [hmid, List.map_append, List.map_cons, List.nodup_middle] at hnd
  obtain ⟨hnot, _⟩ := List.nodup_cons.mp hnd
  rw [List.mem_append, not_or] at hnot
  exact ⟨fun e he heq => hnot.1 (List.mem_map.mpr ⟨e, he, heq⟩),
    fun e he heq => hnot.2 (List.mem_map.mpr ⟨e, he, heq⟩)⟩

theorem AdjoutWf.view_middle (h : AdjoutWf (l ++ p :: r)) (hq : q ∈ p.peermap) :
    adjoutView q (l ++ p :: r) p.pathIdTx = p.attrs := by
  obtain ⟨a, ha, hmid⟩ := h.entries_middle hq
  rw [adjoutView, hmid, lookup_middle (h.fst_ne hq).1, if_pos rfl, ha]

/-- The element at an index splits the array. -/
theorem exists_split_of_getElem? (h : arr[i]? = some p) :
    ∃ l r, arr = l ++ p :: r ∧ l.length = i := by
  obtain ⟨hi, rfl⟩ := List.getElem?_eq_some_iff.mp h
  refine ⟨arr.take i, arr.drop (i + 1), ?_, ?_⟩
  · rw [List.getElem_cons_drop, List.take_append_drop]
  · rw [List.length_take, Nat.min_eq_left (Nat.le_of_lt hi)]

theorem modify_middle (f : AdjoutPrefix → AdjoutPrefix) :
    (l ++ p :: r).modify l.length f = l ++ f p :: r := by
  induction l with
  | nil => simp [List.modify_cons]
  | cons x l ih => simpa [List.modify_cons] using ih

/-! ## Removing an entry -/

theorem AdjoutPrefix.unlink_entry_other (h : q' ≠ q) : (p.unlink q).entry q' = p.entry q' := by
  unfold AdjoutPrefix.entry AdjoutPrefix.unlink
  by_cases hq : q' ∈ p.peermap
  · have hmem : q' ∈ p.peermap.filter (· ≠ q) := by simp [hq, h]
    have hne : p.peermap.filter (· ≠ q) ≠ [] := List.ne_nil_of_mem hmem
    simp only [if_pos hmem, if_neg hne, if_pos hq]
  · have hmem : q' ∉ p.peermap.filter (· ≠ q) := by simp [hq]
    rw [if_neg hmem, if_neg hq]

theorem AdjoutPrefix.unlink_entry_self : (p.unlink q).entry q = none := by
  apply AdjoutPrefix.entry_none
  simp [AdjoutPrefix.unlink]

theorem adjoutEntries_unlink (hp : arr[i]? = some p) (h : q' ≠ q) :
    adjoutEntries q' (adjoutPrefixUnlink q i arr) = adjoutEntries q' arr := by
  obtain ⟨l, r, rfl, rfl⟩ := exists_split_of_getElem? hp
  rw [adjoutPrefixUnlink, modify_middle]
  simp only [adjoutEntries_eq, List.filterMap_append, List.filterMap_cons,
    AdjoutPrefix.unlink_entry_other h]

theorem AdjoutWf.adjoutView_unlink (h : AdjoutWf arr) (hp : arr[i]? = some p)
    (hq : q ∈ p.peermap) :
    adjoutView q (adjoutPrefixUnlink q i arr) id =
      if id = p.pathIdTx then none else adjoutView q arr id := by
  obtain ⟨l, r, rfl, rfl⟩ := exists_split_of_getElem? hp
  obtain ⟨a, _, hmid⟩ := h.entries_middle hq
  obtain ⟨hl, hr⟩ := h.fst_ne hq
  rw [adjoutPrefixUnlink, modify_middle, adjoutView, adjoutView, hmid, lookup_middle hl,
    adjoutEntries_append, adjoutEntries_cons_none AdjoutPrefix.unlink_entry_self]
  split_ifs with hid
  · subst hid
    apply lookup_eq_none
    intro e he
    rcases List.mem_append.mp he with he | he
    · exact hl e he
    · exact hr e he
  · rfl

/-- Taking a peer out of entry `i` keeps the array sorted and without duplicates. -/
theorem AdjoutWf.unlink (h : AdjoutWf arr) (hp : arr[i]? = some p) :
    AdjoutWf (adjoutPrefixUnlink q i arr) := by
  obtain ⟨l, r, rfl, rfl⟩ := exists_split_of_getElem? hp
  rw [adjoutPrefixUnlink, modify_middle]
  refine ⟨?_, fun q' => ?_, fun x hx hne => ?_⟩
  -- the path id of the element does not change
  · have hs := h.sorted
    simp only [List.pairwise_append, List.pairwise_cons, List.mem_cons] at hs ⊢
    exact ⟨hs.1, ⟨hs.2.1.1, hs.2.1.2⟩, fun a ha b hb => by
      rcases hb with rfl | hb
      · exact hs.2.2 a ha p (Or.inl rfl)
      · exact hs.2.2 a ha b (Or.inr hb)⟩
  -- one entry less for `q`
  · refine List.Nodup.sublist (List.Sublist.map _ ?_) (h.nodup q')
    by_cases hq' : q' = q
    · subst hq'
      rw [adjoutEntries_append, adjoutEntries_cons_none AdjoutPrefix.unlink_entry_self,
        adjoutEntries_append]
      refine List.Sublist.append_left ?_ _
      simp only [adjoutEntries_eq, List.filterMap_cons]
      split
      · exact List.Sublist.refl _
      · exact List.sublist_cons_self ..
    -- the entries of another peer stay
    · simp only [adjoutEntries_eq, List.filterMap_append, List.filterMap_cons,
        AdjoutPrefix.unlink_entry_other hq']
      exact List.Sublist.refl _
  · rcases List.mem_append.mp hx with hx | hx
    · exact h.attrs x (List.mem_append_left _ hx) hne
    · rcases List.mem_cons.mp hx with rfl | hx
      · -- the element lost a peer but not its last one
        have hm : p.peermap.filter (· ≠ q) ≠ [] := hne
        have hpm : p.peermap ≠ [] := fun hnil => hm (by rw [hnil]; rfl)
        have hp' := h.attrs p (by simp) hpm
        simp only [AdjoutPrefix.unlink, if_neg hm]
        exact hp'
      · exact h.attrs x (List.mem_append_right _ (List.mem_cons_of_mem _ hx)) hne

/-! ## Adding an entry -/

theorem adjoutPrefixWithAttrs_some (h : adjoutPrefixWithAttrs id attrs arr = some i) :
    ∃ p, arr[i]? = some p ∧ p.pathIdTx = id ∧ p.attrs = some attrs := by
  induction arr generalizing i with
  | nil => cases h
  | cons p arr ih =>
    rw [adjoutPrefixWithAttrs] at h
    split_ifs at h with h₁ h₂ h₃
    · obtain ⟨j, hj, rfl⟩ := Option.map_eq_some_iff.mp h
      simpa using ih hj
    · obtain rfl : 0 = i := Option.some.inj h
      exact ⟨p, rfl, by omega, h₃⟩
    · obtain ⟨j, hj, rfl⟩ := Option.map_eq_some_iff.mp h
      simpa using ih hj

theorem adjoutPrefixAlloc_split (new : AdjoutPrefix) (arr : List AdjoutPrefix) :
    ∃ l r, arr = l ++ r ∧ adjoutPrefixAlloc new arr = l ++ new :: r ∧
      (∀ a ∈ l, a.pathIdTx ≤ new.pathIdTx) ∧ (∀ b ∈ r.head?, new.pathIdTx < b.pathIdTx) := by
  induction arr with
  | nil => exact ⟨[], [], rfl, rfl, by simp, by simp⟩
  | cons p arr ih =>
    rw [adjoutPrefixAlloc]
    split_ifs with h
    · exact ⟨[], p :: arr, rfl, rfl, by simp, by simpa using h⟩
    · obtain ⟨l, r, rfl, heq, hl, hr⟩ := ih
      refine ⟨p :: l, r, rfl, by rw [heq]; rfl, ?_, hr⟩
      intro a ha
      rcases List.mem_cons.mp ha with rfl | ha
      · omega
      · exact hl a ha

theorem mem_bitmapSet {m : List PeerId} : q' ∈ bitmapSet q m ↔ q' = q ∨ q' ∈ m := by
  unfold bitmapSet
  split_ifs with h
  · refine ⟨Or.inr, ?_⟩
    rintro (rfl | h')
    · exact h
    · exact h'
  · simp

/-- The element that `adjoutPrefixLink` changes or makes. `p` is what is in its place. -/
theorem adjoutPrefixLink_split (q : PeerId) (attrs : AdjoutAttr) (id : ℕ)
    (arr : List AdjoutPrefix) :
    ∃ l m r new, arr = l ++ m ++ r ∧ adjoutPrefixLink q attrs id arr = l ++ new :: r ∧
      new.pathIdTx = id ∧ new.attrs = some attrs ∧ q ∈ new.peermap ∧
      (∀ q' ≠ q, adjoutEntries q' [new] = adjoutEntries q' m) ∧
      (m = [] ∧ (∀ a ∈ l, a.pathIdTx ≤ id) ∧ (∀ b ∈ r.head?, id < b.pathIdTx) ∨
        ∃ p, m = [p] ∧ p.pathIdTx = id) := by
  unfold adjoutPrefixLink
  split
  · rename_i i hi
    obtain ⟨p, hp, hid, ha⟩ := adjoutPrefixWithAttrs_some hi
    obtain ⟨l, r, rfl, rfl⟩ := exists_split_of_getElem? hp
    refine ⟨l, [p], r, { p with peermap := bitmapSet q p.peermap }, by simp, modify_middle _, hid,
      ha, mem_bitmapSet.mpr (Or.inl rfl), fun q' hq' => ?_, Or.inr ⟨p, rfl, hid⟩⟩
    have : q' ∈ bitmapSet q p.peermap ↔ q' ∈ p.peermap := by simp [mem_bitmapSet, hq']
    simp only [adjoutEntries, List.filterMap_cons, List.filterMap_nil, this]
  · obtain ⟨l, r, rfl, heq, hl, hr⟩ := adjoutPrefixAlloc_split ⟨id, some attrs, [q]⟩ arr
    refine ⟨l, [], r, ⟨id, some attrs, [q]⟩, by simp, heq, rfl, rfl, by simp, fun q' hq' => ?_,
      Or.inl ⟨rfl, hl, hr⟩⟩
    rw [adjoutEntries_cons_none (AdjoutPrefix.entry_none (by simpa using hq'))]

theorem adjoutEntries_link (h : q' ≠ q) :
    adjoutEntries q' (adjoutPrefixLink q attrs id arr) = adjoutEntries q' arr := by
  obtain ⟨l, m, r, new, rfl, heq, _, _, _, hother, _⟩ := adjoutPrefixLink_split q attrs id arr
  rw [heq, ← List.singleton_append, ← List.append_assoc]
  simp only [adjoutEntries_append, hother q' h]

/-- Where the new entry is put among those of its peer. -/
theorem adjoutEntries_link_self (attrs : AdjoutAttr) (hview : adjoutView q arr id = none)
    (h : AdjoutWf arr) :
    ∃ a b, adjoutEntries q arr = a ++ b ∧
      adjoutEntries q (adjoutPrefixLink q attrs id arr) = a ++ (id, attrs) :: b := by
  obtain ⟨l, m, r, new, rfl, heq, hid, ha, hq, _, hm⟩ := adjoutPrefixLink_split q attrs id arr
  have hnone : adjoutEntries q m = [] := by
    rcases hm with ⟨rfl, _⟩ | ⟨p, rfl, hp⟩
    · rfl
    · -- a shared element of this path id is not yet for the peer
      have hq : q ∉ p.peermap := by
        intro hq
        have hmid : adjoutView q (l ++ p :: r) p.pathIdTx = p.attrs :=
          AdjoutWf.view_middle (by simpa using h) hq
        obtain ⟨a, ha⟩ := h.exists_attrs (p := p) (by simp) hq
        rw [hp, ha] at hmid
        simp only [List.append_assoc, List.singleton_append] at hview
        rw [hview] at hmid
        cases hmid
      rw [adjoutEntries_cons_none (AdjoutPrefix.entry_none hq), adjoutEntries_nil]
  refine ⟨adjoutEntries q l, adjoutEntries q r, by simp [hnone], ?_⟩
  rw [heq, adjoutEntries_append, adjoutEntries_cons_some (AdjoutPrefix.entry_some hq ha), hid]

theorem AdjoutWf.adjoutView_link (h : AdjoutWf arr) (hview : adjoutView q arr id = none) :
    adjoutView q (adjoutPrefixLink q attrs id arr) id' =
      if id' = id then some attrs else adjoutView q arr id' := by
  obtain ⟨a, b, hold, hnew⟩ := adjoutEntries_link_self attrs hview h
  have hne := adjoutView_eq_none_iff.mp hview
  rw [adjoutView, hnew, lookup_middle, adjoutView, hold]
  intro e he
  apply hne e
  rw [hold]
  exact List.mem_append_left _ he

/-- Adding a peer that has no entry under the id keeps the array well formed. -/
theorem AdjoutWf.link (h : AdjoutWf arr) (hview : adjoutView q arr id = none) :
    AdjoutWf (adjoutPrefixLink q attrs id arr) where
  sorted := by
    obtain ⟨l, m, r, new, rfl, heq, hid, _, _, _, hm⟩ := adjoutPrefixLink_split q attrs id arr
    have hs := h.sorted
    rw [heq]
    rcases hm with ⟨rfl, hl, hr⟩ | ⟨p, rfl, hp⟩
    · -- a new element: those behind it have larger path ids
      rw [List.append_nil] at hs
      obtain ⟨hsl, hsr, hlr⟩ := List.pairwise_append.mp hs
      have hr' : ∀ b ∈ r, new.pathIdTx ≤ b.pathIdTx := by
        cases r with
        | nil => simp
        | cons b₀ r =>
          have hb₀ : id < b₀.pathIdTx := hr b₀ rfl
          intro b hb
          rcases List.mem_cons.mp hb with rfl | hb
          · omega
          · have := (List.pairwise_cons.mp hsr).1 b hb
            omega
      refine List.pairwise_append.mpr ⟨hsl, List.pairwise_cons.mpr ⟨hr', hsr⟩, fun a ha b hb => ?_⟩
      rcases List.mem_cons.mp hb with rfl | hb
      · rw [hid]
        exact hl a ha
      · exact hlr a ha b hb
    -- the peer joins an element that has this path id already
    · simp only [List.append_assoc, List.singleton_append, List.pairwise_append,
        List.pairwise_cons, List.mem_cons] at hs ⊢
      rw [hid, ← hp]
      refine ⟨hs.1, hs.2.1, fun a ha b hb => ?_⟩
      rcases hb with rfl | hb
      · rw [hid, ← hp]
        exact hs.2.2 a ha p (Or.inl rfl)
      · exact hs.2.2 a ha b (Or.inr hb)
  nodup q' := by
    by_cases hq' : q' = q
    · subst hq'
      -- the new entry is the only one of `q` with this path id
      obtain ⟨a, b, hold, hnew⟩ := adjoutEntries_link_self attrs hview h
      have hnd := h.nodup q'
      have hne := adjoutView_eq_none_iff.mp hview
      rw [hold] at hnd hne
      rw [hnew, List.map_append, List.map_cons, List.nodup_middle, ← List.map_append,
        List.nodup_cons]
      refine ⟨fun hmem => ?_, hnd⟩
      obtain ⟨e, he, hid⟩ := List.mem_map.mp hmem
      exact hne e he hid
    · rw [adjoutEntries_link hq']
      exact h.nodup q'
  attrs := by
    obtain ⟨l, m, r, new, rfl, heq, _, ha, _, _, _⟩ := adjoutPrefixLink_split q attrs id arr
    rw [heq]
    intro x hx hne
    rcases List.mem_append.mp hx with hx | hx
    · exact h.attrs x (by simp [hx]) hne
    · rcases List.mem_cons.mp hx with rfl | hx
      · rw [ha]
        rfl
      · exact h.attrs x (by simp [hx]) hne

/-! ## Removing tombstones -/

@[simp] theorem adjoutEntries_collect (q : PeerId) (arr : List AdjoutPrefix) :
    adjoutEntries q (adjoutPrefixCollect arr) = adjoutEntries q arr := by
  unfold adjoutPrefixCollect
  induction arr with
  | nil => rfl
  | cons p arr ih =>
    rw [List.filter_cons]
    split_ifs with h
    · simp only [adjoutEntries_eq, List.filterMap_cons] at ih ⊢
      rw [ih]
    · have : p.entry q = none := by
        have hnone : p.attrs = none := by simpa using h
        simp [AdjoutPrefix.entry, hnone]
      rw [ih, adjoutEntries_cons_none this]

@[simp] theorem adjoutView_collect (q : PeerId) (arr : List AdjoutPrefix) (id : ℕ) :
    adjoutView q (adjoutPrefixCollect arr) id = adjoutView q arr id := by
  rw [adjoutView, adjoutEntries_collect, adjoutView]

theorem AdjoutWf.collect (h : AdjoutWf arr) : AdjoutWf (adjoutPrefixCollect arr) where
  sorted := h.sorted.filter _
  nodup q := by
    rw [adjoutEntries_collect]
    exact h.nodup q
  attrs p hp := h.attrs p (List.mem_of_mem_filter hp)

/-! ## Searching -/

theorem adjoutPrefixGet_some (h : adjoutPrefixGet q id arr = some i) :
    ∃ p, arr[i]? = some p ∧ p.pathIdTx = id ∧ q ∈ p.peermap := by
  induction arr generalizing i with
  | nil => cases h
  | cons p arr ih =>
    rw [adjoutPrefixGet] at h
    split_ifs at h with h₁ h₂ h₃
    · obtain ⟨j, hj, rfl⟩ := Option.map_eq_some_iff.mp h
      simpa using ih hj
    · obtain rfl : 0 = i := Option.some.inj h
      exact ⟨p, rfl, by omega, h₃⟩
    · obtain ⟨j, hj, rfl⟩ := Option.map_eq_some_iff.mp h
      simpa using ih hj

/-- No entry found means that the peer has announced nothing under the id. -/
theorem adjoutPrefixGet_none (hs : arr.Pairwise (fun a b => a.pathIdTx ≤ b.pathIdTx))
    (h : adjoutPrefixGet q id arr = none) : adjoutView q arr id = none := by
  rw [adjoutView_eq_none_iff]
  induction arr with
  | nil => simp
  | cons p arr ih =>
    obtain ⟨hp, hs⟩ := List.pairwise_cons.mp hs
    intro e he
    rw [adjoutEntries_eq, List.mem_filterMap] at he
    obtain ⟨x, hx, hxe⟩ := he
    rw [AdjoutPrefix.entry_fst hxe]
    have htail : ∀ {o : Option ℕ}, o.map (· + 1) = none → o = none := Option.map_eq_none_iff.mp
    rw [adjoutPrefixGet] at h
    split_ifs at h with h₁ h₂ h₃
    · rcases List.mem_cons.mp hx with rfl | hx
      · omega
      · have :=
          ih hs (htail h) e (by rw [adjoutEntries_eq]; exact List.mem_filterMap.mpr ⟨x, hx, hxe⟩)
        rwa [AdjoutPrefix.entry_fst hxe] at this
    · -- the path ids only get larger from here
      rcases List.mem_cons.mp hx with rfl | hx
      · omega
      · have := hp x hx
        omega
    · rcases List.mem_cons.mp hx with rfl | hx
      · rw [AdjoutPrefix.entry_none h₃] at hxe
        cases hxe
      · have :=
          ih hs (htail h) e (by rw [adjoutEntries_eq]; exact List.mem_filterMap.mpr ⟨x, hx, hxe⟩)
        rwa [AdjoutPrefix.entry_fst hxe] at this

theorem AdjoutWf.tail (h : AdjoutWf (p :: arr)) : AdjoutWf arr where
  sorted := (List.pairwise_cons.mp h.sorted).2
  nodup q := by
    refine List.Nodup.sublist (List.Sublist.map _ ?_) (h.nodup q)
    rw [adjoutEntries_eq, adjoutEntries_eq]
    exact (List.sublist_cons_self p arr).filterMap _
  attrs x hx := h.attrs x (List.mem_cons_of_mem _ hx)

/-- The loop over the entries of a peer visits an entry for each pair of its map, in order.
    `k` is a path id the peer has no further entry for. -/
theorem adjoutPrefixesFrom_spec (h : AdjoutWf arr) {k : Option ℕ}
    (hk : ∀ id ∈ k, ∀ e ∈ adjoutEntries q arr, e.1 ≠ id) :
    (adjoutPrefixesFrom q i k arr).map (fun e => (e.2.pathIdTx, e.2.attrs)) =
        (adjoutEntries q arr).map (fun e => (e.1, some e.2)) ∧
      ∀ e ∈ adjoutPrefixesFrom q i k arr,
        i ≤ e.1 ∧ arr[e.1 - i]? = some e.2 ∧ q ∈ e.2.peermap := by
  induction arr generalizing i k with
  | nil => simp [adjoutPrefixesFrom]
  | cons p arr ih =>
    -- an entry that is not the first one is found in the rest
    have hrest : ∀ e : ℕ × AdjoutPrefix, i + 1 ≤ e.1 ∧ arr[e.1 - (i + 1)]? = some e.2 ∧
        q ∈ e.2.peermap → i ≤ e.1 ∧ (p :: arr)[e.1 - i]? = some e.2 ∧ q ∈ e.2.peermap := by
      rintro e ⟨hi, hget, hq⟩
      refine ⟨by omega, ?_, hq⟩
      rw [show e.1 - i = e.1 - (i + 1) + 1 by omega, List.getElem?_cons_succ]
      exact hget
    rw [adjoutPrefixesFrom]
    split_ifs with h₁ h₂
    -- the entry that is skipped is not the peer's, by `hk`
    · have hq : q ∉ p.peermap := by
        intro hq
        obtain ⟨a, ha⟩ := h.exists_attrs (List.mem_cons_self ..) hq
        apply hk p.pathIdTx h₁ (p.pathIdTx, a)
        · rw [adjoutEntries_cons_some (p.entry_some hq ha)]
          exact List.mem_cons_self ..
        · rfl
      rw [adjoutEntries_cons_none (p.entry_none hq)] at hk ⊢
      obtain ⟨hmap, hget⟩ := ih (i := i + 1) h.tail hk
      exact ⟨hmap, fun e he => hrest e (hget e he)⟩
    -- the element belongs to the peer, and its path id is passed over from here on
    · obtain ⟨a, ha⟩ := h.exists_attrs (List.mem_cons_self ..) h₂
      have hne := (AdjoutWf.fst_ne (l := []) h h₂).2
      obtain ⟨hmap, hget⟩ := ih (i := i + 1) h.tail (k := some p.pathIdTx)
        (by rintro id ⟨⟩; exact hne)
      rw [adjoutEntries_cons_some (p.entry_some h₂ ha), List.map_cons, List.map_cons, hmap, ha]
      refine ⟨rfl, fun e he => ?_⟩
      rcases List.mem_cons.mp he with rfl | he
      · exact ⟨le_refl _, by simp, h₂⟩
      · exact hrest e (hget e he)
    -- the element is not the peer's
    · rw [adjoutEntries_cons_none (p.entry_none h₂)] at hk ⊢
      obtain ⟨hmap, hget⟩ := ih (i := i + 1) (k := none) h.tail (by simp)
      exact ⟨hmap, fun e he => hrest e (hget e he)⟩

theorem AdjoutWf.adjoutPrefixes_entries (h : AdjoutWf arr) (q : PeerId) :
    (adjoutPrefixes q arr).map (fun e => (e.2.pathIdTx, e.2.attrs)) =
      (adjoutEntries q arr).map (fun e => (e.1, some e.2)) :=
  (adjoutPrefixesFrom_spec h (by simp)).1

theorem AdjoutWf.adjoutPrefixes_ids (h : AdjoutWf arr) (q : PeerId) :
    (adjoutPrefixes q arr).map (·.2.pathIdTx) = (adjoutEntries q arr).map (·.1) := by
  have := congrArg (List.map Prod.fst) (h.adjoutPrefixes_entries q)
  simpa [Function.comp_def] using this

theorem AdjoutWf.adjoutPrefixes_get (h : AdjoutWf arr) {e : ℕ × AdjoutPrefix}
    (he : e ∈ adjoutPrefixes q arr) : arr[e.1]? = some e.2 ∧ q ∈ e.2.peermap :=
  ((adjoutPrefixesFrom_spec h (by simp)).2 e he).2

end Bgpd.Rde
