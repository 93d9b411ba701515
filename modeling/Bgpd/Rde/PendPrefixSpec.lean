import Bgpd.Rde.PendPrefix

/-!
# The Queues of Pending Prefixes

Between two operations the memory says where everything is: each `struct pend_attr` is on the
queue of its address family, each `struct pend_prefix` on the queue that its attributes say, and
both are in their hash tables. Inside `pend_prefix_add` one prefix is in limbo: it has been taken
off its queue, or was just made, and is not yet on the next queue.

## Main results

- `attrAlloc_spec`, `attrFree_spec`: the steps for attributes
- `remove_spec`, `link_spec`: into limbo and back
-/

namespace Bgpd.Rde.Pend

variable {A : Type}

/-! ## Lookups in a hash table -/

theorem find_eq_some_iff {α : Type} {p : α → Bool} {l : List α}
    (huniq : ∀ a ∈ l, ∀ b ∈ l, p a = true → p b = true → a = b) {a : α} :
    l.find? p = some a ↔ a ∈ l ∧ p a = true := by
  constructor
  · exact fun h => ⟨List.mem_of_find?_eq_some h, List.find?_some h⟩
  · rintro ⟨hmem, hp⟩
    obtain ⟨b, hb⟩ := Option.isSome_iff_exists.mp (List.find?_isSome.mpr ⟨a, hmem, hp⟩)
    rw [hb, huniq a hmem b (List.mem_of_find?_eq_some hb) hp (List.find?_some hb)]

/-- Taking the only element that a lookup finds out of the table. -/
theorem eraseP_eq_erase {α : Type} [DecidableEq α] {p : α → Bool} {l : List α} {a : α}
    (huniq : ∀ b ∈ l, p b = true → b = a) (hp : p a = true) : l.eraseP p = l.erase a := by
  induction l with
  | nil => rfl
  | cons b l ih =>
    by_cases hb : p b = true
    · obtain rfl := huniq b List.mem_cons_self hb
      rw [List.eraseP_cons_of_pos hb, List.erase_cons_head]
    · have hne : b ≠ a := by
        rintro rfl
        exact hb hp
      rw [List.eraseP_cons_of_neg hb, List.erase_cons_tail (by simpa using hne),
        ih fun c hc => huniq c (List.mem_cons_of_mem _ hc)]

/-! ## What is in memory -/

namespace PeerPend

variable (s : PeerPend A)

/-- The attributes and the address family of an object, which do not change. -/
def kind (a : Addr) : Option (Option A × Aid) := (s.attrAt a).map fun y => (y.attrs, y.aid)

/-- The prefixes of an object. -/
def prefixesAt (a : Addr) : List Addr := ((s.attrAt a).map PendAttr.prefixes).getD []

/-- The elements of a queue. -/
def queueAt : Head → List Addr
  | .withdraws aid => s.withdraws aid
  | .prefixes a => s.prefixesAt a

/-- The prefix is an update, or a withdraw. -/
def isKind (update : Bool) (p : Addr) : Bool :=
  (s.prefixAt p).any fun x => x.attrs.isSome = update

/-- The counter of the updates, or of the withdraws. -/
def counter (update : Bool) : ℤ := if update then s.pendingUpdate else s.pendingWithdraw

end PeerPend

/-- Each `struct pend_attr` is on its queue and in the hash table, and no two are for the same
    attributes. -/
structure AttrOk (s : PeerPend A) : Prop where
  hash : ∀ a, a ∈ s.pendAttrs ↔ ∃ k, s.kind a = some k
  nodup : s.pendAttrs.Nodup
  queue : ∀ aid a, a ∈ s.updates aid ↔ ∃ v, s.kind a = some (v, aid)
  queueNodup : ∀ aid, (s.updates aid).Nodup
  key : ∀ a b k, s.kind a = some k → s.kind b = some k → a = b

/-- Each `struct pend_prefix` but the one in limbo is on its queue and in the hash table, no two
    are for the same prefix and path id, and the counters count them. -/
structure PrefixOk (limbo : Option Addr) (s : PeerPend A) : Prop where
  hash : ∀ p, p ∈ s.pendPrefixes ↔ (∃ x, s.prefixAt p = some x) ∧ limbo ≠ some p
  nodup : s.pendPrefixes.Nodup
  queue : ∀ head p, p ∈ s.queueAt head ↔
    (∃ x, s.prefixAt p = some x ∧ PeerPend.headOf x = head) ∧ limbo ≠ some p
  queueNodup : ∀ head, (s.queueAt head).Nodup
  key : ∀ p q x y, s.prefixAt p = some x → s.prefixAt q = some y → x.pt = y.pt →
    x.pathIdTx = y.pathIdTx → p = q
  target : ∀ p x a, s.prefixAt p = some x → x.attrs = some a →
    ∃ v, s.kind a = some (some v, x.pt.aid)
  counted : ∀ u, s.counter u = s.pendPrefixes.countP (s.isKind u)

section Memory

variable {s : PeerPend A} {limbo : Option Addr} {p a : Addr} {x : PendPrefix} {y : PendAttr A}

theorem attrOk_empty : AttrOk ({} : PeerPend A) := by
  constructor <;> simp [PeerPend.kind]

theorem prefixOk_empty : PrefixOk none ({} : PeerPend A) := by
  constructor
  case queue => rintro (aid | a) p <;> simp [PeerPend.queueAt, PeerPend.prefixesAt]
  case queueNodup => rintro (aid | a) <;> simp [PeerPend.queueAt, PeerPend.prefixesAt]
  case counted => rintro (_ | _) <;> rfl
  all_goals simp

theorem readPrefix_eq (hx : s.prefixAt p = some x) : s.readPrefix p = .ok x := by
  unfold PeerPend.readPrefix
  rw [hx]

theorem readAttr_eq (hy : s.attrAt a = some y) : s.readAttr a = .ok y := by
  unfold PeerPend.readAttr
  rw [hy]

theorem kind_eq (hy : s.attrAt a = some y) : s.kind a = some (y.attrs, y.aid) := by
  unfold PeerPend.kind
  rw [hy]
  rfl

theorem prefixesAt_eq (hy : s.attrAt a = some y) : s.prefixesAt a = y.prefixes := by
  unfold PeerPend.prefixesAt
  rw [hy]
  rfl

theorem exists_of_kind {v : Option A} {aid : Aid} (h : s.kind a = some (v, aid)) :
    ∃ y, s.attrAt a = some y ∧ y.attrs = v ∧ y.aid = aid := by
  obtain ⟨y, hy, hk⟩ := Option.map_eq_some_iff.mp h
  obtain ⟨hv, haid⟩ := Prod.mk.inj hk
  exact ⟨y, hy, hv, haid⟩

theorem counter_count (s : PeerPend A) (attrs : Option Addr) (n : ℤ) (u : Bool) :
    (s.count attrs n).counter u = s.counter u + if attrs.isSome = u then n else 0 := by
  cases attrs <;> cases u <;> simp [PeerPend.count, PeerPend.counter]

@[simp] theorem count_prefixAt (s : PeerPend A) (attrs : Option Addr) (n : ℤ) :
    (s.count attrs n).prefixAt = s.prefixAt := by cases attrs <;> rfl

@[simp] theorem count_attrAt (s : PeerPend A) (attrs : Option Addr) (n : ℤ) :
    (s.count attrs n).attrAt = s.attrAt := by cases attrs <;> rfl

@[simp] theorem count_updates (s : PeerPend A) (attrs : Option Addr) (n : ℤ) :
    (s.count attrs n).updates = s.updates := by cases attrs <;> rfl

@[simp] theorem count_withdraws (s : PeerPend A) (attrs : Option Addr) (n : ℤ) :
    (s.count attrs n).withdraws = s.withdraws := by cases attrs <;> rfl

@[simp] theorem count_pendAttrs (s : PeerPend A) (attrs : Option Addr) (n : ℤ) :
    (s.count attrs n).pendAttrs = s.pendAttrs := by cases attrs <;> rfl

@[simp] theorem count_pendPrefixes (s : PeerPend A) (attrs : Option Addr) (n : ℤ) :
    (s.count attrs n).pendPrefixes = s.pendPrefixes := by cases attrs <;> rfl

theorem prefixEq_iff {pt : PtEntry} {id : ℕ} :
    s.prefixEq pt id p = true ↔ ∃ x, s.prefixAt p = some x ∧ x.pt = pt ∧ x.pathIdTx = id := by
  unfold PeerPend.prefixEq
  cases s.prefixAt p <;> simp

/-- What a lookup of a prefix finds. -/
theorem PrefixOk.lookup_iff (h : PrefixOk limbo s) {pt : PtEntry} {id : ℕ} :
    pendPrefixLookup s pt id = some p ↔
      (∃ x, s.prefixAt p = some x ∧ x.pt = pt ∧ x.pathIdTx = id) ∧ limbo ≠ some p := by
  unfold pendPrefixLookup
  rw [find_eq_some_iff, h.hash, prefixEq_iff]
  · constructor
    · exact fun ⟨⟨_, hl⟩, hx⟩ => ⟨hx, hl⟩
    · exact fun ⟨⟨x, hx, hkey⟩, hl⟩ => ⟨⟨⟨x, hx⟩, hl⟩, x, hx, hkey⟩
  · intro p _ q _ hp hq
    obtain ⟨x, hx, rfl, rfl⟩ := prefixEq_iff.mp hp
    obtain ⟨y, hy, hpt, hid⟩ := prefixEq_iff.mp hq
    exact h.key p q x y hx hy hpt.symm hid.symm

theorem PrefixOk.not_of_lookup_none (h : PrefixOk none s) {pt : PtEntry} {id : ℕ}
    (hno : pendPrefixLookup s pt id = none) (hx : s.prefixAt p = some x) :
    ¬(x.pt = pt ∧ x.pathIdTx = id) := by
  intro hkey
  exact nomatch hno.symm.trans (h.lookup_iff.mpr ⟨⟨x, hx, hkey⟩, nofun⟩)

/-- The queue that a prefix is on is in memory. -/
theorem PrefixOk.exists_attr (h : PrefixOk limbo s) (hx : s.prefixAt p = some x)
    (ha : PeerPend.headOf x = .prefixes a) : ∃ y, s.attrAt a = some y := by
  unfold PeerPend.headOf at ha
  split at ha
  · exact nomatch ha
  · next b hb =>
    cases ha
    obtain ⟨v, hk⟩ := h.target p x _ hx hb
    obtain ⟨y, hy, -, -⟩ := exists_of_kind hk
    exact ⟨y, hy⟩

/-- Changing a queue that is in memory changes nothing else. -/
theorem setQueue_spec (s : PeerPend A) (f : List Addr → List Addr) (head : Head)
    (hin : ∀ a, head = .prefixes a → ∃ y, s.attrAt a = some y) :
    ∃ s', s.setQueue f head = .ok s' ∧
      s' = { s with withdraws := s'.withdraws, attrAt := s'.attrAt } ∧ s'.kind = s.kind ∧
      ∀ h, s'.queueAt h = if h = head then f (s.queueAt head) else s.queueAt h := by
  cases head with
  | withdraws aid =>
    refine ⟨_, rfl, rfl, rfl, ?_⟩
    rintro (aid' | a)
    · by_cases haid : aid' = aid
      · subst haid
        simp [PeerPend.queueAt]
      · simp [PeerPend.queueAt, haid]
    · rfl
  | prefixes a =>
    obtain ⟨y, hy⟩ := hin a rfl
    have hset : s.setQueue f (.prefixes a) = .ok { s with
        attrAt := Function.update s.attrAt a (some { y with prefixes := f y.prefixes }) } := by
      simp only [PeerPend.setQueue, readAttr_eq hy]
      rfl
    refine ⟨_, hset, rfl, ?_, ?_⟩
    · funext b
      unfold PeerPend.kind
      by_cases hb : b = a
      · subst hb
        simp [hy]
      · simp [hb]
    · rintro (aid | b)
      · rfl
      · by_cases hb : b = a
        · subst hb
          simp [PeerPend.queueAt, PeerPend.prefixesAt, hy]
        · simp [PeerPend.queueAt, PeerPend.prefixesAt, hb]

end Memory

section Attrs

variable [DecidableEq A] {s : PeerPend A} {limbo : Option Addr} {p a : Addr} {attrs : Option A}
  {aid : Aid}

theorem attrEq_iff : s.attrEq attrs aid a = true ↔ s.kind a = some (attrs, aid) := by
  unfold PeerPend.attrEq PeerPend.kind
  cases s.attrAt a <;> simp

/-- What a lookup of attributes finds. -/
theorem AttrOk.lookup_iff (h : AttrOk s) :
    pendAttrLookup s attrs aid = some a ↔ s.kind a = some (attrs, aid) := by
  unfold pendAttrLookup
  rw [find_eq_some_iff, h.hash, attrEq_iff]
  · exact ⟨fun hk => hk.2, fun hk => ⟨⟨_, hk⟩, hk⟩⟩
  · exact fun a _ b _ ha hb => h.key a b _ (attrEq_iff.mp ha) (attrEq_iff.mp hb)

/-- What a step for attributes leaves alone. -/
structure SamePrefixes (s s' : PeerPend A) : Prop where
  prefixAt : s'.prefixAt = s.prefixAt
  pendPrefixes : s'.pendPrefixes = s.pendPrefixes
  queueAt : s'.queueAt = s.queueAt
  counter : s'.counter = s.counter

omit [DecidableEq A] in
/-- The prefixes are well kept as long as their attributes are there. -/
theorem PrefixOk.of_same {s' : PeerPend A} (h : PrefixOk limbo s) (hs : SamePrefixes s s')
    (hkind : ∀ p x a v, s.prefixAt p = some x → x.attrs = some a →
      s.kind a = some (some v, x.pt.aid) → s'.kind a = some (some v, x.pt.aid)) :
    PrefixOk limbo s' := by
  have his : s'.isKind = s.isKind := by
    unfold PeerPend.isKind
    rw [hs.prefixAt]
  constructor
  · simpa only [hs.prefixAt, hs.pendPrefixes] using h.hash
  · simpa only [hs.pendPrefixes] using h.nodup
  · simpa only [hs.prefixAt, hs.queueAt] using h.queue
  · simpa only [hs.queueAt] using h.queueNodup
  · simpa only [hs.prefixAt] using h.key
  · intro p x a hx ha
    rw [hs.prefixAt] at hx
    obtain ⟨v, hk⟩ := h.target p x a hx ha
    exact ⟨v, hkind p x a v hx ha hk⟩
  · simpa only [hs.counter, hs.pendPrefixes, his] using h.counted

/-- A new `struct pend_attr` without prefixes. -/
theorem attrAlloc_spec (h : AttrOk s) {new : Addr} (hnew : s.attrAt new = none)
    (hno : pendAttrLookup s attrs aid = none) :
    ∃ s', pendAttrAlloc attrs aid new s = .ok s' ∧ AttrOk s' ∧ SamePrefixes s s' ∧
      s'.kind = Function.update s.kind new (some (attrs, aid)) := by
  have hknew : s.kind new = none := by
    unfold PeerPend.kind
    rw [hnew]
    rfl
  have hne : ∀ b k, s.kind b = some k → b ≠ new := by
    rintro b k hk rfl
    exact nomatch hknew.symm.trans hk
  have hnokey : ∀ b, s.kind b ≠ some (attrs, aid) := fun b hk =>
    nomatch hno.symm.trans (h.lookup_iff.mpr hk)
  -- the new state, before the hash table is looked at
  obtain ⟨s₁, hs₁⟩ : ∃ s₁ : PeerPend A, s₁ = { s with
      attrAt := Function.update s.attrAt new (some { attrs := attrs, aid := aid })
      updates := Function.update s.updates aid (s.updates aid ++ [new]) } := ⟨_, rfl⟩
  have hupdates : s₁.updates = Function.update s.updates aid (s.updates aid ++ [new]) := by
    rw [hs₁]
  have hkind : s₁.kind = Function.update s.kind new (some (attrs, aid)) := by
    funext b
    unfold PeerPend.kind
    rw [hs₁]
    by_cases hb : b = new
    · subst hb
      simp
    · simp [hb]
  -- the new entry, or one that was there
  have hread : ∀ b k, s₁.kind b = some k ↔ b = new ∧ k = (attrs, aid) ∨ s.kind b = some k := by
    intro b k
    rw [hkind]
    by_cases hb : b = new
    · subst hb
      simp [hknew, eq_comm]
    · simp [hb]
  have hany : s.pendAttrs.any (s₁.attrEq attrs aid) = false := by
    rw [List.any_eq_false]
    intro b hb heq
    obtain ⟨k, hk⟩ := (h.hash b).mp hb
    rcases (hread b _).mp (attrEq_iff.mp heq) with ⟨hbn, -⟩ | hbk
    · exact hne b k hk hbn
    · exact hnokey b hbk
  -- no entry has these attributes, so the insertion succeeds
  have halloc : pendAttrAlloc attrs aid new s =
      .ok { s₁ with pendAttrs := new :: s.pendAttrs } := by
    unfold pendAttrAlloc
    rw [hs₁] at hany ⊢
    dsimp only
    rw [if_neg (by simpa using hany)]
  refine ⟨_, halloc, ?_, ?_, hkind⟩
  · constructor
    · intro b
      rw [List.mem_cons, h.hash]
      show _ ↔ ∃ k, s₁.kind b = some k
      simp only [hread]
      constructor
      · rintro (hb | ⟨k, hk⟩)
        · exact ⟨_, Or.inl ⟨hb, rfl⟩⟩
        · exact ⟨k, Or.inr hk⟩
      · rintro ⟨k, ⟨hb, -⟩ | hk⟩
        · exact Or.inl hb
        · exact Or.inr ⟨k, hk⟩
    · refine List.nodup_cons.mpr ⟨fun hmem => ?_, h.nodup⟩
      obtain ⟨k, hk⟩ := (h.hash new).mp hmem
      exact hne new k hk rfl
    · intro aid' b
      show b ∈ s₁.updates aid' ↔ ∃ v, s₁.kind b = some (v, aid')
      simp only [hread, hupdates]
      by_cases haid : aid' = aid
      · subst haid
        simp only [Function.update_self, List.mem_append, List.mem_singleton, h.queue,
          Prod.mk.injEq, and_true]
        constructor
        · rintro (⟨v, hk⟩ | rfl)
          · exact ⟨v, Or.inr hk⟩
          · exact ⟨attrs, Or.inl ⟨rfl, rfl⟩⟩
        · rintro ⟨v, ⟨rfl, -⟩ | hk⟩
          · exact Or.inr rfl
          · exact Or.inl ⟨v, hk⟩
      · simp [haid, h.queue]
    · intro aid'
      show (s₁.updates aid').Nodup
      rw [hs₁]
      by_cases haid : aid' = aid
      · subst haid
        simp only [Function.update_self]
        refine List.nodup_append.mpr ⟨h.queueNodup aid', List.nodup_singleton _, ?_⟩
        intro b hb c hc
        rw [List.mem_singleton.mp hc]
        obtain ⟨v, hk⟩ := (h.queue aid' b).mp hb
        exact hne b _ hk
      · simpa [haid] using h.queueNodup aid'
    · intro b c k hb hc
      rcases (hread b k).mp hb with ⟨rfl, rfl⟩ | hb'
      · rcases (hread c _).mp hc with ⟨rfl, -⟩ | hc'
        · rfl
        · exact absurd hc' (hnokey c)
      · rcases (hread c k).mp hc with ⟨rfl, rfl⟩ | hc'
        · exact absurd hb' (hnokey b)
        · exact h.key b c k hb' hc'
  · constructor
    · rw [hs₁]
    · rw [hs₁]
    · funext head
      rw [hs₁]
      cases head with
      | withdraws aid' => rfl
      | prefixes b =>
        by_cases hb : b = new
        · subst hb
          simp [PeerPend.queueAt, PeerPend.prefixesAt, hnew]
        · simp [PeerPend.queueAt, PeerPend.prefixesAt, hb]
    · rw [hs₁]
      rfl

/-- A `struct pend_attr` without prefixes goes away. -/
theorem attrFree_spec (h : AttrOk s) {y : PendAttr A} (hy : s.attrAt a = some y)
    (hempty : y.prefixes = []) :
    ∃ s', pendAttrFree a s = .ok s' ∧ AttrOk s' ∧ SamePrefixes s s' ∧
      s'.kind = Function.update s.kind a none := by
  have hk := kind_eq hy
  have herase : s.pendAttrs.eraseP (s.attrEq y.attrs y.aid) = s.pendAttrs.erase a :=
    eraseP_eq_erase (fun b _ hb => h.key b a _ (attrEq_iff.mp hb) hk) (attrEq_iff.mpr hk)
  have hfree : pendAttrFree a s = .ok { s with
      updates := Function.update s.updates y.aid ((s.updates y.aid).erase a)
      pendAttrs := s.pendAttrs.erase a
      attrAt := Function.update s.attrAt a none } := by
    unfold pendAttrFree
    rw [readAttr_eq hy, ← herase]
    simp [bind, Except.bind, hempty]
  obtain ⟨s₁, hs₁⟩ : ∃ s₁ : PeerPend A, s₁ = { s with
      updates := Function.update s.updates y.aid ((s.updates y.aid).erase a)
      pendAttrs := s.pendAttrs.erase a
      attrAt := Function.update s.attrAt a none } := ⟨_, rfl⟩
  have hupdates : s₁.updates = Function.update s.updates y.aid ((s.updates y.aid).erase a) := by
    rw [hs₁]
  have hpend : s₁.pendAttrs = s.pendAttrs.erase a := by rw [hs₁]
  have hkind : s₁.kind = Function.update s.kind a none := by
    funext b
    unfold PeerPend.kind
    rw [hs₁]
    by_cases hb : b = a
    · subst hb
      simp
    · simp [hb]
  -- the other entries are what they were
  have hread : ∀ b k, s₁.kind b = some k ↔ b ≠ a ∧ s.kind b = some k := by
    intro b k
    rw [hkind]
    by_cases hb : b = a
    · subst hb
      simp
    · simp [hb]
  rw [← hs₁] at hfree
  refine ⟨s₁, hfree, ?_, ?_, hkind⟩
  · constructor
    · intro b
      simp only [hread, hpend, h.nodup.mem_erase_iff, h.hash, exists_and_left]
    · rw [hpend]
      exact h.nodup.erase a
    · intro aid' b
      simp only [hread, hupdates]
      by_cases haid : aid' = y.aid
      · subst haid
        simp only [Function.update_self, (h.queueNodup _).mem_erase_iff, h.queue, exists_and_left]
      · simp only [Function.update_of_ne haid, h.queue, exists_and_left]
        refine (and_iff_right_of_imp ?_).symm
        rintro ⟨v, hv⟩ rfl
        rw [hk] at hv
        exact haid (Prod.mk.inj (Option.some_inj.mp hv)).2.symm
    · intro aid'
      rw [hs₁]
      by_cases haid : aid' = y.aid
      · subst haid
        simpa using (h.queueNodup _).erase a
      · simpa [haid] using h.queueNodup aid'
    · intro b c k hb hc
      exact h.key b c k ((hread b k).mp hb).2 ((hread c k).mp hc).2
  · constructor
    · rw [hs₁]
    · rw [hs₁]
    · funext head
      rw [hs₁]
      cases head with
      | withdraws aid' => rfl
      | prefixes b =>
        by_cases hb : b = a
        · subst hb
          simp [PeerPend.queueAt, PeerPend.prefixesAt, hy, hempty]
        · simp [PeerPend.queueAt, PeerPend.prefixesAt, hb]
    · rw [hs₁]
      rfl

end Attrs

/-! ## Into limbo and back -/

section Limbo

variable {s : PeerPend A} {limbo : Option Addr} {p : Addr} {x : PendPrefix}

/-- What a step for prefixes leaves alone. -/
structure SameAttrs (s s' : PeerPend A) : Prop where
  kind : s'.kind = s.kind
  pendAttrs : s'.pendAttrs = s.pendAttrs
  updates : s'.updates = s.updates

theorem SameAttrs.refl (s : PeerPend A) : SameAttrs s s := ⟨rfl, rfl, rfl⟩

theorem SameAttrs.trans {s₁ s₂ : PeerPend A} (h : SameAttrs s s₁) (h' : SameAttrs s₁ s₂) :
    SameAttrs s s₂ :=
  ⟨h'.kind.trans h.kind, h'.pendAttrs.trans h.pendAttrs, h'.updates.trans h.updates⟩

theorem AttrOk.of_same {s' : PeerPend A} (h : AttrOk s) (hs : SameAttrs s s') : AttrOk s' := by
  constructor
  · simpa only [hs.kind, hs.pendAttrs] using h.hash
  · simpa only [hs.pendAttrs] using h.nodup
  · simpa only [hs.kind, hs.updates] using h.queue
  · simpa only [hs.updates] using h.queueNodup
  · simpa only [hs.kind] using h.key

theorem isKind_eq (hx : s.prefixAt p = some x) (u : Bool) :
    s.isKind u p = decide (x.attrs.isSome = u) := by
  unfold PeerPend.isKind
  rw [hx]
  rfl

/-- The prefixes that are counted do not depend on the one in limbo. -/
theorem countP_isKind_congr {s' : PeerPend A} {l : List Addr} (hp : p ∉ l)
    (h : ∀ q ≠ p, s'.prefixAt q = s.prefixAt q) (u : Bool) :
    l.countP (s'.isKind u) = l.countP (s.isKind u) := by
  apply List.countP_congr
  intro q hq
  have hne : q ≠ p := by
    rintro rfl
    exact hp hq
  unfold PeerPend.isKind
  rw [h q hne]

/-- What taking the prefix `x` at `p` off its queue does to the fields. -/
structure TakenOff (p : Addr) (x : PendPrefix) (s s' : PeerPend A) : Prop where
  same : SameAttrs s s'
  prefixAt : s'.prefixAt = Function.update s.prefixAt p (some { x with attrs := none })
  pendPrefixes : s'.pendPrefixes = s.pendPrefixes.erase p
  queueAt : ∀ head, s'.queueAt head =
    if head = PeerPend.headOf x then (s.queueAt head).erase p else s.queueAt head
  counter : ∀ u, s'.counter u = s.counter u + if x.attrs.isSome = u then -1 else 0

/-- The prefix is found in the tree and on its queue, so the removal returns. -/
theorem remove_takenOff (h : PrefixOk none s) (hx : s.prefixAt p = some x) :
    ∃ s', pendPrefixRemove p (PeerPend.headOf x) s = .ok s' ∧ TakenOff p x s s' := by
  have hlookup : pendPrefixLookup s x.pt x.pathIdTx = some p :=
    h.lookup_iff.mpr ⟨⟨x, hx, rfl, rfl⟩, nofun⟩
  have herase : s.pendPrefixes.eraseP (s.prefixEq x.pt x.pathIdTx) = s.pendPrefixes.erase p := by
    apply eraseP_eq_erase
    · intro q _ hq
      obtain ⟨y, hy, hpt, hid⟩ := prefixEq_iff.mp hq
      exact h.key q p y x hy hx hpt hid
    · exact prefixEq_iff.mpr ⟨x, hx, rfl, rfl⟩
  obtain ⟨s₁, hset, hs₁, hkind, hqueue⟩ := setQueue_spec
    { s with pendPrefixes := s.pendPrefixes.erase p } (·.erase p) (PeerPend.headOf x)
    fun a ha => h.exists_attr hx ha
  -- the entry the code finds is the one at `p`
  have hremove : pendPrefixRemove p (PeerPend.headOf x) s =
      .ok ((s₁.count x.attrs (-1)).setAttrs p x none) := by
    unfold pendPrefixRemove
    rw [readPrefix_eq hx]
    simp only [bind, Except.bind, hlookup, ne_eq, not_true_eq_false, if_false, herase]
    rw [hset]
  obtain ⟨s', hs'⟩ : ∃ s' : PeerPend A, s' = (s₁.count x.attrs (-1)).setAttrs p x none := ⟨_, rfl⟩
  rw [← hs'] at hremove
  refine ⟨s', hremove, ⟨?_, ?_, ?_⟩, ?_, ?_, fun head => ?_, fun u => ?_⟩
  · have hk : s'.kind = s₁.kind := by
      rw [hs']
      funext a
      simp [PeerPend.kind, PeerPend.setAttrs]
    exact hk.trans hkind
  · rw [hs']
    simp only [PeerPend.setAttrs, count_pendAttrs]
    rw [hs₁]
  · rw [hs']
    simp only [PeerPend.setAttrs, count_updates]
    rw [hs₁]
  · rw [hs']
    simp only [PeerPend.setAttrs, count_prefixAt]
    rw [hs₁]
  · rw [hs']
    simp only [PeerPend.setAttrs, count_pendPrefixes]
    rw [hs₁]
  · have hcount : s'.queueAt head = s₁.queueAt head := by
      rw [hs']
      cases head <;> simp [PeerPend.queueAt, PeerPend.prefixesAt, PeerPend.setAttrs]
    rw [hcount, hqueue]
    by_cases hh : head = PeerPend.headOf x
    · rw [if_pos hh, if_pos hh, hh]
      rfl
    · rw [if_neg hh, if_neg hh]
      rfl
  · rw [hs', hs₁]
    exact counter_count _ _ _ _

section TakenOff

variable {s' : PeerPend A} (ht : TakenOff p x s s') (h : PrefixOk none s)
  (hx : s.prefixAt p = some x)

include ht

theorem TakenOff.read {q : Addr} (hq : q ≠ p) : s'.prefixAt q = s.prefixAt q := by
  rw [ht.prefixAt, Function.update_of_ne hq]

theorem TakenOff.read_self : s'.prefixAt p = some { x with attrs := none } := by
  rw [ht.prefixAt, Function.update_self]

include hx in
/-- The keys are what they were. -/
theorem TakenOff.old {q : Addr} {y : PendPrefix} (hy : s'.prefixAt q = some y) :
    ∃ y', s.prefixAt q = some y' ∧ y'.pt = y.pt ∧ y'.pathIdTx = y.pathIdTx := by
  by_cases hq : q = p
  · subst hq
    rw [ht.read_self] at hy
    cases hy
    exact ⟨x, hx, rfl, rfl⟩
  · exact ⟨y, (ht.read hq).symm.trans hy, rfl, rfl⟩

include h

theorem TakenOff.hash (q : Addr) :
    q ∈ s'.pendPrefixes ↔ (∃ y, s'.prefixAt q = some y) ∧ some p ≠ some q := by
  rw [ht.pendPrefixes, h.nodup.mem_erase_iff, h.hash]
  by_cases hq : q = p
  · simp [hq]
  · simp only [ht.read hq, ne_eq, hq, not_false_eq_true, true_and, Option.some.injEq,
      Ne.symm hq, and_true, reduceCtorEq]

include hx

/-- The prefix is on no queue, all others are on the queue they were on. -/
theorem TakenOff.queue (head : Head) (q : Addr) : q ∈ s'.queueAt head ↔
    (∃ y, s'.prefixAt q = some y ∧ PeerPend.headOf y = head) ∧ some p ≠ some q := by
  rw [ht.queueAt]
  by_cases hq : q = p
  · subst hq
    refine iff_of_false ?_ (fun hr => hr.2 rfl)
    by_cases hh : head = PeerPend.headOf x
    · rw [if_pos hh, (h.queueNodup head).mem_erase_iff]
      exact fun hr => hr.1 rfl
    · rw [if_neg hh, h.queue]
      rintro ⟨⟨y, hy, rfl⟩, -⟩
      rw [hx] at hy
      cases hy
      exact hh rfl
  · have hin : (q ∈ if head = PeerPend.headOf x then (s.queueAt head).erase p else s.queueAt head) ↔
        q ∈ s.queueAt head := by
      split
      · rw [(h.queueNodup head).mem_erase_iff, and_iff_right hq]
      · rfl
    rw [hin, h.queue]
    simp only [ht.read hq, ne_eq, Option.some.injEq, Ne.symm hq, not_false_eq_true, and_true,
      reduceCtorEq]

/-- The counter of its kind goes down with the tree. -/
theorem TakenOff.counted (u : Bool) : s'.counter u = s'.pendPrefixes.countP (s'.isKind u) := by
  have hmem : p ∈ s.pendPrefixes := (h.hash p).mpr ⟨⟨x, hx⟩, nofun⟩
  have hnot : p ∉ s.pendPrefixes.erase p := fun hr => (h.nodup.mem_erase_iff.mp hr).1 rfl
  have hcongr : (s.pendPrefixes.erase p).countP (s'.isKind u) =
      (s.pendPrefixes.erase p).countP (s.isKind u) :=
    countP_isKind_congr hnot (fun q hq => ht.read hq) u
  rw [ht.counter, ht.pendPrefixes, h.counted, hcongr, List.countP_erase]
  have hone : p ∈ s.pendPrefixes ∧ s.isKind u p = true ↔ x.attrs.isSome = u := by
    rw [isKind_eq hx, and_iff_right hmem, decide_eq_true_iff]
  by_cases hu : x.attrs.isSome = u
  · have hpos : 0 < s.pendPrefixes.countP (s.isKind u) :=
      List.countP_pos_iff.mpr ⟨p, hmem, (hone.mpr hu).2⟩
    rw [if_pos hu, if_pos (hone.mpr hu)]
    omega
  · rw [if_neg hu, if_neg fun hr => hu (hone.mp hr)]
    omega

end TakenOff

/-- A prefix is taken off its queue. -/
theorem remove_spec (h : PrefixOk none s) (hx : s.prefixAt p = some x) :
    ∃ s', pendPrefixRemove p (PeerPend.headOf x) s = .ok s' ∧ PrefixOk (some p) s' ∧
      SameAttrs s s' ∧ s'.prefixAt = Function.update s.prefixAt p (some { x with attrs := none }) ∧
      ∀ head, s'.queueAt head =
        if head = PeerPend.headOf x then (s.queueAt head).erase p else s.queueAt head := by
  obtain ⟨s', hremove, ht⟩ := remove_takenOff h hx
  refine ⟨s', hremove, ?_, ht.same, ht.prefixAt, ht.queueAt⟩
  refine ⟨ht.hash h, ?_, ht.queue h hx, fun head => ?_, ?_, ?_, ht.counted h hx⟩
  · rw [ht.pendPrefixes]
    exact h.nodup.erase p
  · rw [ht.queueAt]
    split
    · exact (h.queueNodup head).erase p
    · exact h.queueNodup head
  · intro q r y z hy hz hpt hid
    obtain ⟨y', hy', hpt₁, hid₁⟩ := ht.old hx hy
    obtain ⟨z', hz', hpt₂, hid₂⟩ := ht.old hx hz
    exact h.key q r y' z' hy' hz' (hpt₁.trans (hpt.trans hpt₂.symm))
      (hid₁.trans (hid.trans hid₂.symm))
  · intro q y a hy ha
    rw [ht.same.kind]
    by_cases hq : q = p
    · -- in limbo it has no attributes
      subst hq
      rw [ht.read_self] at hy
      cases hy
      exact nomatch ha
    · exact h.target q y a ((ht.read hq).symm.trans hy) ha

/-- The prefix in limbo is put on the queue that its attributes say. -/
theorem link_spec (h : PrefixOk (some p) s) (hx : s.prefixAt p = some x) :
    ∃ s', pendPrefixLink p x s = .ok s' ∧ PrefixOk none s' ∧ SameAttrs s s' ∧
      s'.prefixAt = s.prefixAt ∧
      ∀ head, s'.queueAt head =
        if head = PeerPend.headOf x then s.queueAt head ++ [p] else s.queueAt head := by
  have hfresh : p ∉ s.pendPrefixes := fun hr => ((h.hash p).mp hr).2 rfl
  have hkind₀ : (s.count x.attrs 1).kind = s.kind := by
    funext a
    simp [PeerPend.kind]
  have hqueue₀ : ∀ head, (s.count x.attrs 1).queueAt head = s.queueAt head := by
    rintro (aid | a) <;> simp [PeerPend.queueAt, PeerPend.prefixesAt]
  obtain ⟨s₁, hset, hs₁, hkind, hqueue⟩ := setQueue_spec (s.count x.attrs 1) (· ++ [p])
    (PeerPend.headOf x) fun a ha => by
      rw [count_attrAt]
      exact h.exists_attr hx ha
  have hprefixAt : s₁.prefixAt = s.prefixAt := by
    rw [hs₁]
    exact count_prefixAt ..
  have hpend : s₁.pendPrefixes = s.pendPrefixes := by
    rw [hs₁]
    exact count_pendPrefixes ..
  -- no prefix in the tree has the key of this one
  have hany : s₁.pendPrefixes.any (s₁.prefixEq x.pt x.pathIdTx) = false := by
    rw [List.any_eq_false]
    intro q hq heq
    obtain ⟨y, hy, hpt, hid⟩ := prefixEq_iff.mp heq
    rw [hprefixAt] at hy
    rw [hpend] at hq
    obtain rfl := h.key q p y x hy hx hpt hid
    exact hfresh hq
  rw [hpend] at hany
  have hlink : pendPrefixLink p x s = .ok { s₁ with pendPrefixes := p :: s.pendPrefixes } := by
    unfold pendPrefixLink
    simp only [bind, Except.bind, hset, hany, Bool.false_eq_true, if_false, hpend]
  -- the queue of its head gets it at the end
  have hqueueAt : ∀ head, s₁.queueAt head =
      if head = PeerPend.headOf x then s.queueAt head ++ [p] else s.queueAt head := by
    intro head
    rw [hqueue, hqueue₀, hqueue₀]
    by_cases hh : head = PeerPend.headOf x
    · rw [if_pos hh, if_pos hh, hh]
    · rw [if_neg hh, if_neg hh]
  have hsame : SameAttrs s s₁ := by
    refine ⟨hkind.trans hkind₀, ?_, ?_⟩
    · rw [hs₁]
      exact count_pendAttrs ..
    · rw [hs₁]
      exact count_updates ..
  refine ⟨_, hlink, ?_, ⟨hsame.kind, hsame.pendAttrs, hsame.updates⟩, hprefixAt, hqueueAt⟩
  constructor
  · intro q
    show q ∈ p :: s.pendPrefixes ↔ (∃ y, s₁.prefixAt q = some y) ∧ _
    rw [List.mem_cons, h.hash, hprefixAt]
    by_cases hq : q = p
    · subst hq
      simp [hx]
    · simp only [hq, false_or, ne_eq, Option.some.injEq, Ne.symm hq, not_false_eq_true, and_true,
        reduceCtorEq]
  · exact List.nodup_cons.mpr ⟨hfresh, h.nodup⟩
  · intro head q
    show q ∈ s₁.queueAt head ↔ (∃ y, s₁.prefixAt q = some y ∧ _) ∧ _
    rw [hqueueAt, hprefixAt]
    by_cases hq : q = p
    · subst hq
      have hno : ∀ head, q ∉ s.queueAt head := fun head hr => ((h.queue head q).mp hr).2 rfl
      simp only [hx, Option.some.injEq, exists_eq_left', ne_eq, reduceCtorEq, not_false_eq_true,
        and_true]
      by_cases hh : head = PeerPend.headOf x
      · simp [hh]
      · rw [if_neg hh]
        exact iff_of_false (hno head) (Ne.symm hh)
    · have hin : (q ∈ if head = PeerPend.headOf x then s.queueAt head ++ [p] else s.queueAt head) ↔
          q ∈ s.queueAt head := by
        split
        · simp [hq]
        · rfl
      rw [hin, h.queue]
      simp only [ne_eq, Option.some.injEq, Ne.symm hq, not_false_eq_true, and_true, reduceCtorEq]
  · intro head
    show (s₁.queueAt head).Nodup
    rw [hqueueAt]
    split
    · refine List.nodup_append.mpr ⟨h.queueNodup head, List.nodup_singleton _, ?_⟩
      intro q hq r hr
      rw [List.mem_singleton.mp hr]
      rintro rfl
      exact ((h.queue head q).mp hq).2 rfl
    · exact h.queueNodup head
  · intro q r y z hy hz
    exact h.key q r y z (hprefixAt ▸ hy) (hprefixAt ▸ hz)
  · intro q y a hy ha
    show ∃ v, s₁.kind a = some (some v, y.pt.aid)
    rw [hsame.kind]
    exact h.target q y a (hprefixAt ▸ hy) ha
  · intro u
    -- the counter goes up with the queue
    have hcounter : s₁.counter u = s.counter u + if x.attrs.isSome = u then 1 else 0 := by
      rw [← counter_count, hs₁]
      rfl
    show s₁.counter u = ((p :: s.pendPrefixes).countP (s₁.isKind u) : ℤ)
    have hkinds : s₁.isKind u = s.isKind u := by
      unfold PeerPend.isKind
      rw [hprefixAt]
    rw [hcounter, h.counted, hkinds, List.countP_cons, isKind_eq hx]
    by_cases hu : x.attrs.isSome = u
    · simp [hu]
    · simp [hu]

/-- The prefix in limbo gets other attributes. -/
theorem setAttrs_spec (h : PrefixOk (some p) s) (hx : s.prefixAt p = some x) {y : PendPrefix}
    (hpt : y.pt = x.pt) (hid : y.pathIdTx = x.pathIdTx) {attrs : Option Addr}
    (htarget : ∀ a, attrs = some a → ∃ v, s.kind a = some (some v, y.pt.aid)) :
    PrefixOk (some p) (s.setAttrs p y attrs) := by
  have hread : ∀ q, q ≠ p → (s.setAttrs p y attrs).prefixAt q = s.prefixAt q :=
    fun q hq => Function.update_of_ne hq ..
  have hreadp : (s.setAttrs p y attrs).prefixAt p = some { y with attrs := attrs } :=
    Function.update_self ..
  have hqueueAt : (s.setAttrs p y attrs).queueAt = s.queueAt := by
    funext head
    cases head <;> rfl
  -- `p` is the prefix that is in no tree, so the others stay linked
  have hlimbo : ∀ (P : PendPrefix → Prop) q,
    (∃ z, (s.setAttrs p y attrs).prefixAt q = some z ∧ P z) ∧
      some p ≠ some q ↔ (∃ z, s.prefixAt q = some z ∧ P z) ∧ some p ≠ some q := by
    intro P q
    by_cases hq : q = p
    · simp [hq]
    · rw [hread q hq]
  constructor
  · intro q
    have := hlimbo (fun _ => True) q
    simp only [and_true] at this
    rw [this]
    exact h.hash q
  · exact h.nodup
  · intro head q
    rw [hqueueAt, h.queue, hlimbo]
  · rw [hqueueAt]
    exact h.queueNodup
  · intro q r z z' hz hz' hpt' hid'
    -- the keys do not change
    have hold : ∀ q z, (s.setAttrs p y attrs).prefixAt q = some z →
        ∃ w, s.prefixAt q = some w ∧ w.pt = z.pt ∧ w.pathIdTx = z.pathIdTx := by
      intro q z hz
      by_cases hq : q = p
      · subst hq
        rw [hreadp] at hz
        cases hz
        exact ⟨x, hx, hpt.symm, hid.symm⟩
      · exact ⟨z, (hread q hq).symm.trans hz, rfl, rfl⟩
    obtain ⟨w, hw, hpt₁, hid₁⟩ := hold q z hz
    obtain ⟨w', hw', hpt₂, hid₂⟩ := hold r z' hz'
    exact h.key q r w w' hw hw' (hpt₁.trans (hpt'.trans hpt₂.symm))
      (hid₁.trans (hid'.trans hid₂.symm))
  · intro q z a hz ha
    by_cases hq : q = p
    · subst hq
      rw [hreadp] at hz
      cases hz
      exact htarget a ha
    · exact h.target q z a ((hread q hq).symm.trans hz) ha
  · intro u
    have hnot : p ∉ s.pendPrefixes := fun hr => ((h.hash p).mp hr).2 rfl
    show s.counter u = (s.pendPrefixes.countP ((s.setAttrs p y attrs).isKind u) : ℤ)
    rw [h.counted, countP_isKind_congr hnot hread]

/-- A new prefix is in limbo. -/
theorem prefixAlloc_spec (h : PrefixOk none s) {attrs : Option Addr} {pt : PtEntry} {id : ℕ}
    (hnew : s.prefixAt p = none) (hno : pendPrefixLookup s pt id = none)
    (htarget : ∀ a, attrs = some a → ∃ v, s.kind a = some (some v, pt.aid)) :
    PrefixOk (some p) (pendPrefixAlloc attrs pt id p s) := by
  have hread : ∀ q, q ≠ p → (pendPrefixAlloc attrs pt id p s).prefixAt q = s.prefixAt q :=
    fun q hq => Function.update_of_ne hq ..
  have hreadp : (pendPrefixAlloc attrs pt id p s).prefixAt p = some ⟨pt, attrs, id⟩ :=
    Function.update_self ..
  have hqueueAt : (pendPrefixAlloc attrs pt id p s).queueAt = s.queueAt := by
    funext head
    cases head <;> rfl
  have hlimbo : ∀ (P : PendPrefix → Prop) q,
      (∃ z, (pendPrefixAlloc attrs pt id p s).prefixAt q = some z ∧ P z) ∧ some p ≠ some q ↔
        (∃ z, s.prefixAt q = some z ∧ P z) ∧ none ≠ some q := by
    intro P q
    by_cases hq : q = p
    · simp [hq, hnew]
    · rw [hread q hq]
      simp [Ne.symm hq]
  constructor
  · intro q
    have := hlimbo (fun _ => True) q
    simp only [and_true] at this
    rw [this]
    exact h.hash q
  · exact h.nodup
  · intro head q
    rw [hqueueAt, h.queue, hlimbo]
  · rw [hqueueAt]
    exact h.queueNodup
  -- two prefixes of one key: one of them would be the new one
  · intro q r z z' hz hz' hpt hid
    by_cases hq : q = p
    · by_cases hr : r = p
      · rw [hq, hr]
      · subst hq
        rw [hreadp] at hz
        cases hz
        rw [hread r hr] at hz'
        exact absurd ⟨hpt.symm, hid.symm⟩ (h.not_of_lookup_none hno hz')
    · rw [hread q hq] at hz
      by_cases hr : r = p
      · subst hr
        rw [hreadp] at hz'
        cases hz'
        exact absurd ⟨hpt, hid⟩ (h.not_of_lookup_none hno hz)
      · rw [hread r hr] at hz'
        exact h.key q r z z' hz hz' hpt hid
  · intro q z a hz ha
    by_cases hq : q = p
    · subst hq
      rw [hreadp] at hz
      cases hz
      exact htarget a ha
    · exact h.target q z a ((hread q hq).symm.trans hz) ha
  · intro u
    have hnot : p ∉ s.pendPrefixes := by
      intro hr
      obtain ⟨z, hz⟩ := ((h.hash p).mp hr).1
      exact nomatch hnew.symm.trans hz
    show s.counter u = (s.pendPrefixes.countP ((pendPrefixAlloc attrs pt id p s).isKind u) : ℤ)
    rw [h.counted, countP_isKind_congr hnot hread]

/-- The prefix in limbo goes away. -/
theorem prefixGone_spec (h : PrefixOk (some p) s) :
    PrefixOk none { s with prefixAt := Function.update s.prefixAt p none } := by
  obtain ⟨s', hs'⟩ : ∃ s' : PeerPend A,
      s' = { s with prefixAt := Function.update s.prefixAt p none } := ⟨_, rfl⟩
  rw [← hs']
  have hread : ∀ q, q ≠ p → s'.prefixAt q = s.prefixAt q := by
    intro q hq
    rw [hs']
    exact Function.update_of_ne hq ..
  have hreadp : s'.prefixAt p = none := by
    rw [hs']
    exact Function.update_self ..
  have hqueueAt : s'.queueAt = s.queueAt := by
    rw [hs']
    funext head
    cases head <;> rfl
  have hsome : ∀ q z, s'.prefixAt q = some z → s.prefixAt q = some z := by
    intro q z hz
    by_cases hq : q = p
    · rw [hq, hreadp] at hz
      exact nomatch hz
    · exact (hread q hq).symm.trans hz
  -- `p` was in no tree, and it is gone
  have hlimbo : ∀ (P : PendPrefix → Prop) q, (∃ z, s'.prefixAt q = some z ∧ P z) ∧ none ≠ some q ↔
      (∃ z, s.prefixAt q = some z ∧ P z) ∧ some p ≠ some q := by
    intro P q
    by_cases hq : q = p
    · simp [hq, hreadp]
    · rw [hread q hq]
      simp [Ne.symm hq]
  have hpend : s'.pendPrefixes = s.pendPrefixes := by rw [hs']
  constructor
  · intro q
    have := hlimbo (fun _ => True) q
    simp only [and_true] at this
    rw [this, hpend]
    exact h.hash q
  · rw [hpend]
    exact h.nodup
  · intro head q
    rw [hqueueAt, h.queue, hlimbo]
  · rw [hqueueAt]
    exact h.queueNodup
  · exact fun q r z z' hz hz' => h.key q r z z' (hsome q z hz) (hsome r z' hz')
  · intro q z a hz ha
    rw [hs']
    exact h.target q z a (hsome q z hz) ha
  · intro u
    have hnot : p ∉ s.pendPrefixes := fun hr => ((h.hash p).mp hr).2 rfl
    have hcounter : s'.counter u = s.counter u := by
      rw [hs']
      rfl
    rw [hcounter, hpend, h.counted, countP_isKind_congr hnot hread]

end Limbo

end Bgpd.Rde.Pend
