import Bgpd.Rde.PendPrefixSpec

/-!
# Each Pending Prefix Once

What the operations on the pending queues of a peer do, and what holds after any sequence of
them: each prefix is on one queue at most, which is the one that the last `pend_prefix_add` for
it says, the counters count the queues, and nothing aborts.

## Main results

- `add_spec`: `pend_prefix_add`
- `dump_spec`, `done_spec`, `flush_spec`: sending and flushing
- `pending_once`: every run
-/

namespace Bgpd.Rde.Pend

open Bgpd.Lib

variable {A : Type}

namespace PeerPend

/-- The attributes that a pending prefix will be sent with. -/
def valueOf (s : PeerPend A) (attrs : Option Addr) : Option A :=
  attrs.bind fun a => (s.kind a).bind (·.1)

/-- What is pending for a prefix and a path id. -/
def Pending (s : PeerPend A) (key : PtEntry × ℕ) (v : Option A) : Prop :=
  ∃ p x, s.prefixAt p = some x ∧ (x.pt, x.pathIdTx) = key ∧ v = s.valueOf x.attrs

/-- All attributes but some have prefixes. -/
def Filled (except : Addr → Prop) (s : PeerPend A) : Prop :=
  ∀ a v aid, s.kind a = some (some v, aid) → ¬except a → s.prefixesAt a ≠ []

end PeerPend

/-- What holds between two operations. -/
structure PendOk (s : PeerPend A) : Prop where
  attr : AttrOk s
  pfx : PrefixOk none s
  filled : s.Filled fun _ => False

/-- Nothing new is pending. -/
def Shrinks (s s' : PeerPend A) : Prop := ∀ key v, s'.Pending key v → s.Pending key v

theorem Shrinks.trans {s s₁ s₂ : PeerPend A} (h : Shrinks s s₁) (h' : Shrinks s₁ s₂) :
    Shrinks s s₂ :=
  fun key v hv => h key v (h' key v hv)

variable {s : PeerPend A} {p a : Addr} {x : PendPrefix} {head : Head}

theorem PrefixOk.value_of_attrs (h : PrefixOk none s) (hx : s.prefixAt p = some x) {a : Addr}
    (ha : x.attrs = some a) : ∃ v, s.kind a = some (some v, x.pt.aid) ∧ s.valueOf x.attrs =
      some v := by
  obtain ⟨v, hk⟩ := h.target p x a hx ha
  refine ⟨v, hk, ?_⟩
  unfold PeerPend.valueOf
  rw [ha, Option.bind_some, hk, Option.bind_some]

/-- A prefix with attributes is on the queue of these. -/
theorem PrefixOk.mem_prefixesAt (h : PrefixOk none s) (hx : s.prefixAt p = some x)
    (ha : x.attrs = some a) : p ∈ s.prefixesAt a := by
  apply (h.queue (.prefixes a) p).mpr
  refine ⟨⟨x, hx, ?_⟩, nofun⟩
  unfold PeerPend.headOf
  rw [ha]

/-! ## Taking prefixes off a queue -/

/-- A queue is in memory. -/
def HeadOk (s : PeerPend A) : Head → Prop
  | .withdraws _ => True
  | .prefixes a => ∃ y, s.attrAt a = some y

theorem queue_eq (h : HeadOk s head) : s.queue head = .ok (s.queueAt head) := by
  cases head with
  | withdraws aid => rfl
  | prefixes a =>
    obtain ⟨y, hy⟩ := h
    simp only [PeerPend.queue, readAttr_eq hy, PeerPend.queueAt, prefixesAt_eq hy]
    rfl

theorem HeadOk.of_same {s' : PeerPend A} (h : HeadOk s head) (hs : SameAttrs s s') :
    HeadOk s' head := by
  cases head with
  | withdraws aid => trivial
  | prefixes a =>
    obtain ⟨y, hy⟩ := h
    have hk := kind_eq hy
    rw [← hs.kind] at hk
    obtain ⟨y', hy', -, -⟩ := exists_of_kind hk
    exact ⟨y', hy'⟩

/-- What is left when prefixes were taken off a queue: the others, and the other queues. -/
structure Taken (head : Head) (n : ℕ) (s s' : PeerPend A) : Prop where
  pfx : PrefixOk none s'
  attrs : SameAttrs s s'
  prefixAt : ∀ p x, s'.prefixAt p = some x → s.prefixAt p = some x
  queueAt : s'.queueAt head = (s.queueAt head).drop n
  others : ∀ h ≠ head, s'.queueAt h = s.queueAt h

theorem Taken.refl (h : PrefixOk none s) : Taken head 0 s s :=
  ⟨h, SameAttrs.refl s, fun _ _ hx => hx, rfl, fun _ _ => rfl⟩

theorem Taken.shrinks {n : ℕ} {s' : PeerPend A} (h : Taken head n s s') : Shrinks s s' := by
  rintro key v ⟨p, x, hx, hkey, hv⟩
  refine ⟨p, x, h.prefixAt p x hx, hkey, hv.trans ?_⟩
  unfold PeerPend.valueOf
  rw [h.attrs.kind]

/-- `pend_prefix_free` for the first prefix of a queue. -/
theorem free_spec (h : PrefixOk none s) {l : List Addr} (hq : s.queueAt head = p :: l) :
    ∃ s', pendPrefixFree p head s = .ok s' ∧ Taken head 1 s s' := by
  obtain ⟨⟨x, hx, rfl⟩, -⟩ := (h.queue head p).mp (hq ▸ List.mem_cons_self)
  obtain ⟨s₁, hs₁, hlimbo, hsame, hprefixAt, hqueueAt⟩ := remove_spec h hx
  refine ⟨{ s₁ with prefixAt := Function.update s₁.prefixAt p none }, ?_, ?_⟩
  · unfold pendPrefixFree
    rw [hs₁]
    rfl
  · have hqueue : ∀ h, PeerPend.queueAt { s₁ with
        prefixAt := Function.update s₁.prefixAt p none } h = s₁.queueAt h := by
      rintro (aid | a) <;> rfl
    refine ⟨prefixGone_spec hlimbo, ⟨hsame.kind, hsame.pendAttrs, hsame.updates⟩, ?_, ?_, ?_⟩
    · intro q y hy
      by_cases hqp : q = p
      · subst hqp
        simp at hy
      · dsimp only at hy
        rwa [Function.update_of_ne hqp, hprefixAt, Function.update_of_ne hqp] at hy
    · rw [hqueue, hqueueAt, if_pos rfl, hq, List.erase_cons_head]
      rfl
    · intro h hne
      rw [hqueue, hqueueAt, if_neg hne]

/-- `up_dump_prefix` takes prefixes off the front of a queue. -/
theorem dump_spec (h : PrefixOk none s) (hhead : HeadOk s head) (n : ℕ) :
    ∃ s', upDumpPrefix head n s = .ok s' ∧ Taken head n s s' := by
  induction n generalizing s with
  | zero => exact ⟨s, rfl, Taken.refl h⟩
  | succ n ih =>
    cases hq : s.queueAt head with
    | nil =>
      refine ⟨s, ?_, h, SameAttrs.refl s, fun _ _ hx => hx, ?_, fun _ _ => rfl⟩
      · simp only [upDumpPrefix, queue_eq hhead, hq]
        rfl
      · rw [hq, List.drop_nil]
    | cons p l =>
      obtain ⟨s₁, hs₁, htaken⟩ := free_spec h hq
      obtain ⟨s', hs', htaken'⟩ := ih htaken.pfx (hhead.of_same htaken.attrs)
      refine ⟨s', ?_, htaken'.pfx, htaken.attrs.trans htaken'.attrs, ?_, ?_, ?_⟩
      · simp only [upDumpPrefix, queue_eq hhead, hq]
        show (pendPrefixFree p head s).bind _ = _
        rw [hs₁]
        exact hs'
      · exact fun q y hy => htaken.prefixAt q y (htaken'.prefixAt q y hy)
      · rw [htaken'.queueAt, htaken.queueAt, List.drop_drop, Nat.add_comm]
      · exact fun h hne => (htaken'.others h hne).trans (htaken.others h hne)

/-- `adjout_peer_flush_pending` for one queue. -/
theorem flushQueue_spec (h : PrefixOk none s) (hhead : HeadOk s head) :
    ∃ s', flushQueue head s = .ok s' ∧ Taken head (s.queueAt head).length s s' := by
  obtain ⟨s', hs', htaken⟩ := dump_spec h hhead (s.queueAt head).length
  refine ⟨s', ?_, htaken⟩
  unfold flushQueue
  rw [queue_eq hhead]
  exact hs'

theorem Filled.of_taken {n : ℕ} {s' : PeerPend A} (h : s.Filled fun _ => False)
    (ht : Taken head n s s') : s'.Filled fun a => head = .prefixes a := by
  intro a v aid hk hne
  have hothers := ht.others (.prefixes a) fun heq => hne heq.symm
  rw [show s'.prefixesAt a = s.prefixesAt a from hothers]
  exact h a v aid (ht.attrs.kind ▸ hk) id

section Done

variable [DecidableEq A]

/-- `pend_attr_done`: attributes without prefixes go away. -/
theorem done_spec (hattr : AttrOk s) (h : PrefixOk none s) {y : PendAttr A}
    (hy : s.attrAt a = some y) (hfilled : s.Filled fun b => b = a) :
    ∃ s', pendAttrDone (some a) s = .ok s' ∧ PendOk s' ∧ SamePrefixes s s' ∧
      (∀ b k, b ≠ a → (s'.kind b = some k ↔ s.kind b = some k)) ∧
      ∀ p x, s.prefixAt p = some x → s'.valueOf x.attrs = s.valueOf x.attrs := by
  -- an empty queue gives its attributes up
  by_cases hempty : y.prefixes = []
  · obtain ⟨s', hs', hattr', hsame, hkind⟩ := attrFree_spec hattr hy hempty
    have hne : ∀ p x b, s.prefixAt p = some x → x.attrs = some b → b ≠ a := by
      rintro p x b hx hb rfl
      have hmem := h.mem_prefixesAt hx hb
      rw [prefixesAt_eq hy, hempty] at hmem
      exact nomatch hmem
    refine ⟨s', ?_, ⟨hattr', ?_, ?_⟩, hsame, ?_, ?_⟩
    · simp only [pendAttrDone, readAttr_eq hy, bind, Except.bind, hempty, if_true]
      exact hs'
    · apply h.of_same hsame
      intro p x b v hx hb hk
      rw [hkind, Function.update_of_ne (hne p x b hx hb)]
      exact hk
    · intro b v aid hk _
      have hba : b ≠ a := by
        rintro rfl
        rw [hkind, Function.update_self] at hk
        exact nomatch hk
      rw [hkind, Function.update_of_ne hba] at hk
      rw [show s'.prefixesAt b = s.prefixesAt b from congrFun hsame.queueAt (.prefixes b)]
      exact hfilled b v aid hk hba
    · intro b k hba
      rw [hkind, Function.update_of_ne hba]
    · intro p x hx
      unfold PeerPend.valueOf
      cases hb : x.attrs with
      | none => rfl
      | some b => rw [Option.bind_some, Option.bind_some, hkind,
          Function.update_of_ne (hne p x b hx hb)]
  -- prefixes are left, so the attributes stay
  · refine ⟨s, ?_, ⟨hattr, h, ?_⟩, ⟨rfl, rfl, rfl, rfl⟩, fun _ _ _ => Iff.rfl, fun _ _ _ => rfl⟩
    · simp only [pendAttrDone, readAttr_eq hy, bind, Except.bind, hempty, if_false]
    · intro b v aid hk _
      by_cases hba : b = a
      · subst hba
        rwa [prefixesAt_eq hy]
      · exact hfilled b v aid hk hba

omit [DecidableEq A] in
theorem pending_iff_of_done {s' : PeerPend A} (hsame : SamePrefixes s s')
    (hvalue : ∀ p x, s.prefixAt p = some x → s'.valueOf x.attrs = s.valueOf x.attrs)
    (key : PtEntry × ℕ) (v : Option A) : s'.Pending key v ↔ s.Pending key v := by
  unfold PeerPend.Pending
  rw [hsame.prefixAt]
  constructor
  · rintro ⟨p, x, hx, hkey, hv⟩
    exact ⟨p, x, hx, hkey, hv.trans (hvalue p x hx)⟩
  · rintro ⟨p, x, hx, hkey, hv⟩
    exact ⟨p, x, hx, hkey, hv.trans (hvalue p x hx).symm⟩

/-- `pend_attr_done` after prefixes were taken off its queue. -/
theorem taken_done_spec {n : ℕ} {s₁ : PeerPend A} (h : PendOk s) (ht : Taken (.prefixes a) n s s₁)
    (hhead : HeadOk s (.prefixes a)) :
    ∃ s', pendAttrDone (some a) s₁ = .ok s' ∧ PendOk s' ∧ Shrinks s s' ∧
      ∀ b k, b ≠ a → (s'.kind b = some k ↔ s.kind b = some k) := by
  obtain ⟨y, hy⟩ := hhead.of_same ht.attrs
  have hfilled : s₁.Filled fun b => b = a := by
    intro b v aid hk hba
    exact Filled.of_taken h.filled ht b v aid hk fun heq => hba (Head.prefixes.inj heq).symm
  obtain ⟨s', hs', hok, hsame, hkind, hvalue⟩ :=
    done_spec (h.attr.of_same ht.attrs) ht.pfx hy hfilled
  refine ⟨s', hs', hok, ?_, fun b k hba => ?_⟩
  · intro key v hv
    exact ht.shrinks key v ((pending_iff_of_done hsame hvalue key v).mp hv)
  · rw [hkind b k hba, ht.attrs.kind]

end Done

/-! ## Adding a prefix -/

section Add

variable {attrs : Option A} {pt : PtEntry} {id : ℕ}

/-- What the attributes of an update look like when they have been found or made. -/
structure Got (attrs : Option A) (aid : Aid) (pa : Option Addr) (s s' : PeerPend A) : Prop where
  attr : AttrOk s'
  same : SamePrefixes s s'
  kept : ∀ a k, s.kind a = some k → s'.kind a = some k
  back : ∀ a k, s'.kind a = some k → s.kind a = some k ∨ pa = some a
  isNone : attrs = none → pa = none
  isSome : ∀ v, attrs = some v → ∃ a, pa = some a ∧ s'.kind a = some (some v, aid)

/-- The beginning of `pend_prefix_add`. -/
theorem attrGet_spec [DecidableEq A] (h : AttrOk s) (attrs : Option A) (aid : Aid) {new : Addr}
    (hnew : s.attrAt new = none) :
    ∃ pa s', pendAttrGet attrs aid new s = .ok (pa, s') ∧ Got attrs aid pa s s' := by
  cases attrs with
  | none =>
    exact ⟨none, s, rfl, h, ⟨rfl, rfl, rfl, rfl⟩, fun _ _ hk => hk, fun _ _ hk => Or.inl hk,
      fun _ => rfl, nofun⟩
  | some v =>
    unfold pendAttrGet
    cases hl : pendAttrLookup s (some v) aid with
    -- there is a queue with these attributes already
    | some a =>
      refine ⟨some a, s, rfl, h, ⟨rfl, rfl, rfl, rfl⟩, fun _ _ hk => hk, fun _ _ hk => Or.inl hk,
        nofun, ?_⟩
      intro w hw
      cases hw
      exact ⟨a, rfl, h.lookup_iff.mp hl⟩
    -- there is none, and the new one is at the end of its family
    | none =>
      obtain ⟨s', hs', hattr, hsame, hkind⟩ := attrAlloc_spec h hnew hl
      have hknew : s.kind new = none := by
        unfold PeerPend.kind
        rw [hnew]
        rfl
      refine ⟨some new, s', ?_, hattr, hsame, ?_, ?_, nofun, ?_⟩
      · dsimp only
        rw [hs']
        rfl
      · intro a k hk
        have hne : a ≠ new := by
          rintro rfl
          exact nomatch hknew.symm.trans hk
        rwa [hkind, Function.update_of_ne hne]
      · intro a k hk
        by_cases hne : a = new
        · exact Or.inr (congrArg some hne.symm)
        · rw [hkind, Function.update_of_ne hne] at hk
          exact Or.inl hk
      · intro w hw
        cases hw
        exact ⟨new, rfl, by rw [hkind, Function.update_self]⟩

theorem Got.valueOf {aid : Aid} {pa : Option Addr} {s' : PeerPend A} (h : Got attrs aid pa s s') :
    s'.valueOf pa = attrs := by
  cases attrs with
  | none => rw [h.isNone rfl]; rfl
  | some v =>
    obtain ⟨a, rfl, hk⟩ := h.isSome v rfl
    unfold PeerPend.valueOf
    rw [Option.bind_some, hk, Option.bind_some]

theorem Got.pfx {aid : Aid} {pa : Option Addr} {s' : PeerPend A} (h : Got attrs aid pa s s')
    (hs : PrefixOk none s) : PrefixOk none s' :=
  hs.of_same h.same fun _ _ a _ _ _ hk => h.kept a _ hk

/-- What was pending is so with the same attributes. -/
theorem Got.valueOf_old {aid : Aid} {pa : Option Addr} {s' : PeerPend A}
    (h : Got attrs aid pa s s') (hs : PrefixOk none s) (hx : s.prefixAt p = some x) :
    s'.valueOf x.attrs = s.valueOf x.attrs := by
  cases ha : x.attrs with
  | none => rfl
  | some a =>
    obtain ⟨v, hk⟩ := hs.target p x a hx ha
    unfold PeerPend.valueOf
    rw [Option.bind_some, Option.bind_some, hk, h.kept a _ hk]

/-- The new prefix is the only one that is on another queue than before. -/
structure Linked (pa : Option Addr) (pt : PtEntry) (id : ℕ) (pp : Addr) (s s' : PeerPend A) :
    Prop where
  pfx : PrefixOk none s'
  attrs : SameAttrs s s'
  prefixAt : s'.prefixAt = Function.update s.prefixAt pp (some ⟨pt, pa, id⟩)
  others : ∀ a, pa ≠ some a → s'.prefixesAt a = s.prefixesAt a ∨
    ∃ x, s.prefixAt pp = some x ∧ x.attrs = some a

/-- Every queue of attributes but the one that the prefix came from has prefixes. -/
theorem Linked.filled {aid : Aid} {pa : Option Addr} {pp : Addr} {s₁ s' : PeerPend A}
    (hok : PendOk s) (hgot : Got attrs aid pa s s₁) (h : Linked pa pt id pp s₁ s') :
    s'.Filled fun a => ∃ x, s₁.prefixAt pp = some x ∧ x.attrs = some a := by
  intro a v aid' hk hne
  by_cases hpa : pa = some a
  · have hx : s'.prefixAt pp = some ⟨pt, pa, id⟩ := by
      rw [h.prefixAt, Function.update_self]
    exact List.ne_nil_of_mem (h.pfx.mem_prefixesAt hx hpa)
  · rw [(h.others a hpa).resolve_right hne]
    rw [show s₁.prefixesAt a = s.prefixesAt a from congrFun hgot.same.queueAt (.prefixes a)]
    rw [h.attrs.kind] at hk
    exact hok.filled a v aid' ((hgot.back a _ hk).resolve_right hpa) not_false

/-- What is pending when the prefix has been linked. -/
theorem Linked.pending_iff {pa : Option Addr} {pp : Addr} {s₁ s' : PeerPend A}
    (hok : PendOk s) (hgot : Got attrs pt.aid pa s s₁) (h : Linked pa pt id pp s₁ s')
    (hkey : ∀ q x, s.prefixAt q = some x → ((x.pt, x.pathIdTx) = (pt, id) ↔ q = pp))
    (key : PtEntry × ℕ) (v : Option A) :
    s'.Pending key v ↔ if key = (pt, id) then v = attrs else s.Pending key v := by
  have hvalue : ∀ o, s'.valueOf o = s₁.valueOf o := by
    intro o
    unfold PeerPend.valueOf
    rw [h.attrs.kind]
  unfold PeerPend.Pending
  rw [h.prefixAt]
  constructor
  · rintro ⟨q, x, hx, rfl, rfl⟩
    rw [hvalue]
    -- the prefix that was linked has the new attributes, all others what they had
    by_cases hq : q = pp
    · subst hq
      rw [Function.update_self] at hx
      cases hx
      rw [if_pos rfl]
      exact hgot.valueOf
    · rw [Function.update_of_ne hq, hgot.same.prefixAt] at hx
      rw [if_neg fun heq => hq ((hkey q x hx).mp heq)]
      exact ⟨q, x, hx, rfl, hgot.valueOf_old hok.pfx hx⟩
  · intro hv
    split at hv
    · next heq =>
      exact ⟨pp, ⟨pt, pa, id⟩, Function.update_self .., heq.symm,
        hv.trans (hgot.valueOf.symm.trans (hvalue pa).symm)⟩
    · next hne =>
      obtain ⟨q, x, hx, rfl, rfl⟩ := hv
      have hq : q ≠ pp := fun heq => hne ((hkey q x hx).mpr heq)
      refine ⟨q, x, ?_, rfl, ?_⟩
      · rw [Function.update_of_ne hq, hgot.same.prefixAt]
        exact hx
      · rw [hvalue]
        exact (hgot.valueOf_old hok.pfx hx).symm

/-- A prefix that was not pending. -/
theorem link_new {pa : Option Addr} {pp : Addr} (hs : PrefixOk none s)
    (hnew : s.prefixAt pp = none) (hno : pendPrefixLookup s pt id = none)
    (htarget : ∀ a, pa = some a → ∃ v, s.kind a = some (some v, pt.aid)) :
    ∃ s', pendPrefixLink pp ⟨pt, pa, id⟩ (pendPrefixAlloc pa pt id pp s) = .ok s' ∧
      Linked pa pt id pp s s' := by
  obtain ⟨s', hs', hok, hsame, hprefixAt, hqueueAt⟩ := link_spec
    (prefixAlloc_spec hs hnew hno htarget) (x := ⟨pt, pa, id⟩) (Function.update_self ..)
  refine ⟨s', hs', hok, ⟨hsame.kind, hsame.pendAttrs, hsame.updates⟩, hprefixAt, fun a ha => ?_⟩
  left
  have hhead : Head.prefixes a ≠ PeerPend.headOf ⟨pt, pa, id⟩ := by
    intro heq
    cases pa with
    | none => exact nomatch heq
    | some b => exact ha (congrArg some (Head.prefixes.inj heq).symm)
  exact (hqueueAt (.prefixes a)).trans (if_neg hhead)

/-- A prefix that was pending moves to the end of its new queue, which may be its old one. -/
theorem link_old {pa : Option Addr} {pp : Addr} (hs : PrefixOk none s)
    (hx : s.prefixAt pp = some x)
    (htarget : ∀ a, pa = some a → ∃ v, s.kind a = some (some v, x.pt.aid)) :
    ∃ s₁ s', pendPrefixRemove pp (PeerPend.headOf x) s = .ok s₁ ∧
      pendPrefixLink pp { x with attrs := pa } (s₁.setAttrs pp x pa) = .ok s' ∧
      Linked pa x.pt x.pathIdTx pp s s' := by
  obtain ⟨s₁, hs₁, hlimbo, hsame₁, hprefixAt₁, hqueueAt₁⟩ := remove_spec hs hx
  have hx₁ : s₁.prefixAt pp = some { x with attrs := none } := by
    rw [hprefixAt₁, Function.update_self]
  have hset : PrefixOk (some pp) (s₁.setAttrs pp x pa) := by
    refine setAttrs_spec hlimbo hx₁ rfl rfl fun a ha => ?_
    rw [hsame₁.kind]
    exact htarget a ha
  obtain ⟨s', hs', hok, hsame, hprefixAt, hqueueAt⟩ := link_spec hset
    (x := { x with attrs := pa }) (Function.update_self ..)
  refine ⟨s₁, s', hs₁, hs', hok, hsame₁.trans ⟨hsame.kind, hsame.pendAttrs, hsame.updates⟩, ?_,
    fun a ha => ?_⟩
  · rw [hprefixAt]
    show Function.update s₁.prefixAt pp _ = _
    rw [hprefixAt₁, Function.update_idem]
  · have hhead : Head.prefixes a ≠ PeerPend.headOf { x with attrs := pa } := by
      intro heq
      cases pa with
      | none => exact nomatch heq
      | some b => exact ha (congrArg some (Head.prefixes.inj heq).symm)
    -- it leaves the queue it was in
    by_cases hold : Head.prefixes a = PeerPend.headOf x
    · right
      refine ⟨x, hx, ?_⟩
      unfold PeerPend.headOf at hold
      split at hold
      · exact nomatch hold
      · next b hb => rw [hb, Head.prefixes.inj hold]
    · left
      exact ((hqueueAt (.prefixes a)).trans (if_neg hhead)).trans
        ((hqueueAt₁ (.prefixes a)).trans (if_neg hold))

/-- `pend_prefix_add`: what was pending for the prefix is replaced. -/
theorem add_spec [DecidableEq A] (h : PendOk s) {newpa newpp : Addr} (hpa : s.attrAt newpa = none)
    (hpp : s.prefixAt newpp = none) (attrs : Option A) (pt : PtEntry) (id : ℕ) :
    ∃ s', pendPrefixAdd attrs pt id newpa newpp s = .ok s' ∧ PendOk s' ∧
      ∀ key v, s'.Pending key v ↔ if key = (pt, id) then v = attrs else s.Pending key v := by
  obtain ⟨pa, s₁, hs₁, hgot⟩ := attrGet_spec h.attr attrs pt.aid hpa
  have hpfx₁ := hgot.pfx h.pfx
  have htarget : ∀ a, pa = some a → ∃ v, s₁.kind a = some (some v, pt.aid) := by
    rintro a rfl
    cases hattrs : attrs with
    | none => exact nomatch hgot.isNone hattrs
    | some v =>
      obtain ⟨b, hb, hk⟩ := hgot.isSome v hattrs
      cases hb
      exact ⟨v, hk⟩
  cases hl : pendPrefixLookup s₁ pt id with
  -- the prefix was not pending
  | none =>
    obtain ⟨s', hs', hlinked⟩ := link_new hpfx₁ (hgot.same.prefixAt ▸ hpp) hl htarget
    refine ⟨s', ?_, ⟨hgot.attr.of_same hlinked.attrs, hlinked.pfx, ?_⟩, ?_⟩
    · simp only [pendPrefixAdd, hs₁, bind, Except.bind, hl]
      exact hs'
    · intro a v aid hk _
      apply Linked.filled h hgot hlinked a v aid hk
      rintro ⟨x, hx, -⟩
      rw [hgot.same.prefixAt, hpp] at hx
      exact nomatch hx
    · refine hlinked.pending_iff h hgot fun q x hx => ⟨fun hkey => ?_, fun hq => ?_⟩
      · exact absurd (Prod.mk.inj hkey) (hpfx₁.not_of_lookup_none hl (hgot.same.prefixAt ▸ hx))
      · rw [hq, hpp] at hx
        exact nomatch hx
  -- it was, and moves to the end of its new queue
  | some pp =>
    obtain ⟨⟨x, hx, rfl, rfl⟩, -⟩ := hpfx₁.lookup_iff.mp hl
    obtain ⟨s₂, s₃, hs₂, hs₃, hlinked⟩ := link_old hpfx₁ hx htarget
    have hadd : pendPrefixAdd attrs x.pt x.pathIdTx newpa newpp s = pendAttrDone x.attrs s₃ := by
      simp only [pendPrefixAdd, hs₁, bind, Except.bind, hl, readPrefix_eq hx, hs₂, hs₃]
    have hpending := hlinked.pending_iff h hgot fun q y hy =>
      ⟨fun hkey => hpfx₁.key q pp y x (hgot.same.prefixAt ▸ hy) hx (Prod.mk.inj hkey).1
        (Prod.mk.inj hkey).2, fun hq => by
          rw [hq, ← hgot.same.prefixAt, hx] at hy
          cases hy
          rfl⟩
    have hfilled := Linked.filled h hgot hlinked
    have hattr := hgot.attr.of_same hlinked.attrs
    rw [hadd]
    cases hold : x.attrs with
    | none =>
      refine ⟨s₃, rfl, ⟨hattr, hlinked.pfx, fun a v aid hk _ => hfilled a v aid hk ?_⟩, hpending⟩
      rintro ⟨y, hy, hb⟩
      rw [hx] at hy
      cases hy
      exact nomatch hold.symm.trans hb
    | some a =>
      -- the queue that the prefix came from may be empty now
      obtain ⟨v, hk⟩ := hpfx₁.target pp x a hx hold
      obtain ⟨y, hy, -, -⟩ := exists_of_kind (hlinked.attrs.kind ▸ hk)
      obtain ⟨s', hs', hok, hsame, -, hvalue⟩ := done_spec hattr hlinked.pfx hy
        fun b w aid hkb hne => hfilled b w aid hkb (by
          rintro ⟨z, hz, hb⟩
          rw [hx] at hz
          cases hz
          exact hne (Option.some_inj.mp (hold.symm.trans hb)).symm)
      refine ⟨s', hs', hok, fun key w => ?_⟩
      rw [pending_iff_of_done hsame hvalue]
      exact hpending key w

end Add

/-! ## The other operations -/

section Ops

variable [DecidableEq A]

omit [DecidableEq A] in
theorem PendOk.exists_attr (h : PendOk s) {aid : Aid} (ha : a ∈ s.updates aid) :
    ∃ y, s.attrAt a = some y := by
  obtain ⟨v, hk⟩ := (h.attr.queue aid a).mp ha
  obtain ⟨y, hy, -, -⟩ := exists_of_kind hk
  exact ⟨y, hy⟩

/-- `pend_eor_add`: a marker without prefixes. -/
theorem eorAdd_spec (h : PendOk s) (aid : Aid) {new : Addr} (hnew : s.attrAt new = none) :
    ∃ s', pendEorAdd aid new s = .ok s' ∧ PendOk s' ∧ Shrinks s s' := by
  unfold pendEorAdd
  cases hl : pendAttrLookup s none aid with
  | some a => exact ⟨s, rfl, h, fun _ _ hv => hv⟩
  -- an entry without attributes for the end of RIB
  | none =>
    obtain ⟨s', hs', hattr, hsame, hkind⟩ := attrAlloc_spec h.attr hnew hl
    have hknew : s.kind new = none := by
      unfold PeerPend.kind
      rw [hnew]
      rfl
    have hkept : ∀ b k, s.kind b = some k → s'.kind b = some k := by
      intro b k hk
      have hne : b ≠ new := by
        rintro rfl
        exact nomatch hknew.symm.trans hk
      rwa [hkind, Function.update_of_ne hne]
    refine ⟨s', hs', ⟨hattr, ?_, ?_⟩, fun key v hv => ?_⟩
    · exact h.pfx.of_same hsame fun _ _ b _ _ _ hk => hkept b _ hk
    · intro b v aid' hk _
      have hne : b ≠ new := by
        rintro rfl
        rw [hkind, Function.update_self] at hk
        exact nomatch hk
      rw [hkind, Function.update_of_ne hne] at hk
      rw [show s'.prefixesAt b = s.prefixesAt b from congrFun hsame.queueAt (.prefixes b)]
      exact h.filled b v aid' hk not_false
    · refine (pending_iff_of_done hsame (fun p x hx => ?_) key v).mp hv
      cases hb : x.attrs with
      | none => rfl
      | some b =>
        obtain ⟨w, hk⟩ := h.pfx.target p x b hx hb
        unfold PeerPend.valueOf
        rw [Option.bind_some, Option.bind_some, hk, hkept b _ hk]

/-- `up_is_eor`: if the first element is no marker, nothing happens. -/
theorem isEor_spec (h : PendOk s) (aid : Aid) :
    ∃ b s', upIsEor aid s = .ok (b, s') ∧ PendOk s' ∧ Shrinks s s' ∧
      (b = false → s' = s ∧ ∀ pa l, s.updates aid = pa :: l →
        ∃ y, s.attrAt pa = some y ∧ y.attrs ≠ none) := by
  unfold upIsEor
  cases hu : s.updates aid with
  | nil => exact ⟨false, s, rfl, h, fun _ _ hv => hv, fun _ => ⟨rfl, nofun⟩⟩
  | cons pa l =>
    have hmem : pa ∈ s.updates aid := hu ▸ List.mem_cons_self
    obtain ⟨y, hy⟩ := h.exists_attr hmem
    simp only [readAttr_eq hy, bind, Except.bind]
    by_cases hnone : y.attrs = none
    · obtain ⟨s', hs', hok, hsame, -, hvalue⟩ := done_spec h.attr h.pfx hy
        fun b v aid' hk _ => h.filled b v aid' hk not_false
      rw [if_pos hnone, hs']
      exact ⟨true, s', rfl, hok, fun key v => (pending_iff_of_done hsame hvalue key v).mp, nofun⟩
    · rw [if_neg hnone]
      refine ⟨false, s, rfl, h, fun _ _ hv => hv, fun _ => ⟨rfl, ?_⟩⟩
      rintro pa' l' heq
      cases heq
      exact ⟨y, hy, hnone⟩

/-- `up_dump_update` if the first element is no marker. -/
theorem dumpUpdate_spec (h : PendOk s) (aid : Aid) (fit : Fit)
    (hno : ∀ pa l, s.updates aid = pa :: l → ∃ y, s.attrAt pa = some y ∧ y.attrs ≠ none) :
    ∃ s', upDumpUpdate aid fit s = .ok s' ∧ PendOk s' ∧ Shrinks s s' := by
  unfold upDumpUpdate
  cases hu : s.updates aid with
  | nil => exact ⟨s, rfl, h, fun _ _ hv => hv⟩
  | cons pa l =>
    obtain ⟨y, hy, hattrs⟩ := hno pa l hu
    have hhead : HeadOk s (.prefixes pa) := ⟨y, hy⟩
    simp only [readAttr_eq hy, bind, Except.bind, hattrs, if_false]
    cases fit with
    | written more =>
      obtain ⟨s₁, hs₁, htaken⟩ := dump_spec h.pfx hhead (more + 1)
      obtain ⟨s', hs', hok, hshrinks, -⟩ := taken_done_spec h htaken hhead
      dsimp only
      rw [hs₁]
      exact ⟨s', hs', hok, hshrinks⟩
    | drop =>
      obtain ⟨v, hv⟩ := Option.ne_none_iff_exists'.mp hattrs
      have hne : s.prefixesAt pa ≠ [] :=
        h.filled pa v y.aid (by rw [kind_eq hy, hv]) not_false
      rw [prefixesAt_eq hy] at hne
      obtain ⟨pp, rest, hpp⟩ := List.exists_cons_of_ne_nil hne
      have hqueue : s.queueAt (.prefixes pa) = pp :: rest := (prefixesAt_eq hy).trans hpp
      obtain ⟨s₁, hs₁, htaken⟩ := free_spec h.pfx hqueue
      obtain ⟨s', hs', hok, hshrinks, -⟩ := taken_done_spec h htaken hhead
      simp only [hpp]
      rw [hs₁]
      exact ⟨s', hs', hok, hshrinks⟩
    | fail =>
      obtain ⟨s', hs', hok, hshrinks, -⟩ := taken_done_spec h (Taken.refl h.pfx) hhead
      exact ⟨s', hs', hok, hshrinks⟩

/-- The updates of one peer in `rde_update_queue_runner`: `up_dump_update` never sees a marker. -/
theorem runnerUpdates_spec (h : PendOk s) (aid : Aid) (fit : Fit) :
    ∃ s', runnerUpdates aid fit s = .ok s' ∧ PendOk s' ∧ Shrinks s s' := by
  obtain ⟨b, s₁, hs₁, hok, hshrinks, hno⟩ := isEor_spec h aid
  unfold runnerUpdates
  rw [hs₁]
  simp only [bind, Except.bind]
  cases b with
  | true => exact ⟨s₁, rfl, hok, hshrinks⟩
  | false =>
    obtain ⟨rfl, hno⟩ := hno rfl
    exact dumpUpdate_spec h aid fit hno

omit [DecidableEq A] in
theorem PendOk.of_withdraws {aid : Aid} {n : ℕ} {s' : PeerPend A} (h : PendOk s)
    (ht : Taken (.withdraws aid) n s s') : PendOk s' := by
  refine ⟨h.attr.of_same ht.attrs, ht.pfx, fun a v aid' hk _ => ?_⟩
  exact Filled.of_taken h.filled ht a v aid' hk nofun

/-- The loop of `adjout_peer_flush_pending` over the attributes of an address family. -/
theorem flushAttrs_spec (h : PendOk s) {l : List Addr} (hnodup : l.Nodup)
    (hmem : ∀ a ∈ l, ∃ y, s.attrAt a = some y) :
    ∃ s', l.foldlM (fun s pa => do
        let s ← flushQueue (.prefixes pa) s
        pendAttrDone (some pa) s) s = .ok s' ∧ PendOk s' ∧ Shrinks s s' := by
  induction l generalizing s with
  | nil => exact ⟨s, rfl, h, fun _ _ hv => hv⟩
  | cons a l ih =>
    obtain ⟨ha, hnodup⟩ := List.nodup_cons.mp hnodup
    have hhead : HeadOk s (.prefixes a) := hmem a List.mem_cons_self
    obtain ⟨s₁, hs₁, htaken⟩ := flushQueue_spec h.pfx hhead
    obtain ⟨s₂, hs₂, hok, hshrinks, hkind⟩ := taken_done_spec h htaken hhead
    obtain ⟨s', hs', hok', hshrinks'⟩ := ih hok hnodup fun b hb => by
      obtain ⟨y, hy⟩ := hmem b (List.mem_cons_of_mem _ hb)
      have hba : b ≠ a := by
        rintro rfl
        exact ha hb
      obtain ⟨z, hz, -, -⟩ := exists_of_kind ((hkind b _ hba).mpr (kind_eq hy))
      exact ⟨z, hz⟩
    refine ⟨s', ?_, hok', hshrinks.trans hshrinks'⟩
    rw [List.foldlM_cons]
    simp only [bind, Except.bind, hs₁, hs₂]
    exact hs'

theorem flushAid_spec (h : PendOk s) (aid : Aid) :
    ∃ s', flushAid s aid = .ok s' ∧ PendOk s' ∧ Shrinks s s' := by
  have hhead : HeadOk s (.withdraws aid) := trivial
  obtain ⟨s₁, hs₁, htaken⟩ := flushQueue_spec h.pfx hhead
  have hok := h.of_withdraws htaken
  obtain ⟨s', hs', hok', hshrinks⟩ := flushAttrs_spec hok (hok.attr.queueNodup aid)
    fun a ha => hok.exists_attr ha
  refine ⟨s', ?_, hok', htaken.shrinks.trans hshrinks⟩
  unfold flushAid
  rw [hs₁]
  exact hs'

/-- `adjout_peer_flush_pending` -/
theorem flush_spec (h : PendOk s) :
    ∃ s', adjoutPeerFlushPending s = .ok s' ∧ PendOk s' ∧ Shrinks s s' := by
  unfold adjoutPeerFlushPending
  generalize Aid.all = aids
  induction aids generalizing s with
  | nil => exact ⟨s, rfl, h, fun _ _ hv => hv⟩
  | cons aid aids ih =>
    obtain ⟨s₁, hs₁, hok, hshrinks⟩ := flushAid_spec h aid
    obtain ⟨s', hs', hok', hshrinks'⟩ := ih hok
    refine ⟨s', ?_, hok', hshrinks.trans hshrinks'⟩
    rw [List.foldlM_cons, hs₁]
    exact hs'

/-- The last `pend_prefix_add` for a prefix and a path id, after one more operation. -/
def nextAdd (key : PtEntry × ℕ) (last : Option (Option A)) : PendOp A → Option (Option A)
  | .add attrs pt id _ _ => if key = (pt, id) then some attrs else last
  | _ => last

/-- The last `pend_prefix_add` for a prefix and a path id. -/
def lastAdd (ops : List (PendOp A)) (key : PtEntry × ℕ) : Option (Option A) :=
  ops.foldl (nextAdd key) none

/-- What one operation does: nothing aborts, and only `pend_prefix_add` makes something pending. -/
theorem step_spec (h : PendOk s) {op : PendOp A} (hfresh : s.Fresh op) :
    ∃ s', s.step op = .ok s' ∧ PendOk s' ∧ ∀ (last : PtEntry × ℕ → Option (Option A)),
      (∀ key v, s.Pending key v → last key = some v) → ∀ key v, s'.Pending key v →
        nextAdd key (last key) op = some v := by
  cases op with
  | add attrs pt id newpa newpp =>
    obtain ⟨s', hs', hok, hpending⟩ := add_spec h hfresh.1 hfresh.2 attrs pt id
    refine ⟨s', hs', hok, fun last hlast key v hv => ?_⟩
    have hv := (hpending key v).mp hv
    show (if key = (pt, id) then some attrs else last key) = some v
    by_cases heq : key = (pt, id)
    · rw [if_pos heq] at hv ⊢
      rw [hv]
    · rw [if_neg heq] at hv ⊢
      exact hlast key v hv
  | eorAdd aid new =>
    obtain ⟨s', hs', hok, hshrinks⟩ := eorAdd_spec h aid hfresh
    exact ⟨s', hs', hok, fun last hlast key v hv => hlast key v (hshrinks key v hv)⟩
  | isEor aid =>
    obtain ⟨b, s', hs', hok, hshrinks, -⟩ := isEor_spec h aid
    refine ⟨s', ?_, hok, fun last hlast key v hv => hlast key v (hshrinks key v hv)⟩
    simp only [PeerPend.step, hs', bind, Except.bind]
  | dumpWithdraws aid n =>
    have hhead : HeadOk s (.withdraws aid) := trivial
    obtain ⟨s', hs', htaken⟩ := dump_spec h.pfx hhead n
    exact ⟨s', hs', h.of_withdraws htaken,
      fun last hlast key v hv => hlast key v (htaken.shrinks key v hv)⟩
  | updates aid fit =>
    obtain ⟨s', hs', hok, hshrinks⟩ := runnerUpdates_spec h aid fit
    exact ⟨s', hs', hok, fun last hlast key v hv => hlast key v (hshrinks key v hv)⟩
  | flush =>
    obtain ⟨s', hs', hok, hshrinks⟩ := flush_spec h
    exact ⟨s', hs', hok, fun last hlast key v hv => hlast key v (hshrinks key v hv)⟩

end Ops

/-! ## Every run -/

namespace PeerPend

variable (s : PeerPend A)

/-- All queues of withdraws one after the other. -/
def allWithdraws : List Addr := Aid.all.flatMap s.withdraws

/-- All queues of updates one after the other. -/
def allUpdates : List Addr := (Aid.all.flatMap s.updates).flatMap s.prefixesAt

/-- What the element of a queue is for. -/
def keyAt (p : Addr) : Option (PtEntry × ℕ) := (s.prefixAt p).map fun x => (x.pt, x.pathIdTx)

end PeerPend

theorem aid_all_nodup : Aid.all.Nodup := by decide

theorem PendOk.allWithdraws_nodup (h : PendOk s) : s.allWithdraws.Nodup := by
  refine List.nodup_flatMap.mpr ⟨fun aid _ => h.pfx.queueNodup (.withdraws aid), ?_⟩
  refine aid_all_nodup.imp fun {aid aid'} hne p hp hp' => hne ?_
  obtain ⟨⟨x, hx, hhead⟩, -⟩ := (h.pfx.queue (.withdraws aid) p).mp hp
  obtain ⟨⟨y, hy, hhead'⟩, -⟩ := (h.pfx.queue (.withdraws aid') p).mp hp'
  rw [hx] at hy
  cases hy
  exact Head.withdraws.inj (hhead.symm.trans hhead')

theorem PendOk.mem_allWithdraws (h : PendOk s) :
    p ∈ s.allWithdraws ↔ ∃ x, s.prefixAt p = some x ∧ x.attrs = none := by
  unfold PeerPend.allWithdraws
  rw [List.mem_flatMap]
  have hqueue : ∀ aid, p ∈ s.withdraws aid ↔
      ∃ x, s.prefixAt p = some x ∧ PeerPend.headOf x = .withdraws aid := fun aid =>
    (h.pfx.queue (.withdraws aid) p).trans (and_iff_left nofun)
  simp only [hqueue, Aid.mem_all, true_and]
  constructor
  · rintro ⟨aid, x, hx, hhead⟩
    refine ⟨x, hx, ?_⟩
    unfold PeerPend.headOf at hhead
    split at hhead
    · next hnone => exact hnone
    · exact nomatch hhead
  · rintro ⟨x, hx, hnone⟩
    refine ⟨x.pt.aid, x, hx, ?_⟩
    unfold PeerPend.headOf
    rw [hnone]

theorem PendOk.updates_nodup (h : PendOk s) : (Aid.all.flatMap s.updates).Nodup := by
  refine List.nodup_flatMap.mpr ⟨fun aid _ => h.attr.queueNodup aid, ?_⟩
  refine aid_all_nodup.imp fun {aid aid'} hne a ha ha' => hne ?_
  obtain ⟨v, hk⟩ := (h.attr.queue aid a).mp ha
  obtain ⟨w, hk'⟩ := (h.attr.queue aid' a).mp ha'
  rw [hk] at hk'
  exact (Prod.mk.inj (Option.some_inj.mp hk')).2

theorem PendOk.mem_prefixesAt (h : PendOk s) :
    p ∈ s.prefixesAt a ↔ ∃ x, s.prefixAt p = some x ∧ x.attrs = some a := by
  refine ((h.pfx.queue (.prefixes a) p).trans (and_iff_left nofun)).trans ?_
  refine exists_congr fun x => and_congr_right fun _ => ?_
  unfold PeerPend.headOf
  cases x.attrs with
  | none => simp
  | some b => simp

theorem PendOk.allUpdates_nodup (h : PendOk s) : s.allUpdates.Nodup := by
  refine List.nodup_flatMap.mpr ⟨fun a _ => h.pfx.queueNodup (.prefixes a), ?_⟩
  refine h.updates_nodup.imp fun {a b} hne p hp hp' => hne ?_
  obtain ⟨x, hx, ha⟩ := h.mem_prefixesAt.mp hp
  obtain ⟨y, hy, hb⟩ := h.mem_prefixesAt.mp hp'
  rw [hx] at hy
  cases hy
  exact Option.some_inj.mp (ha.symm.trans hb)

theorem PendOk.mem_allUpdates (h : PendOk s) :
    p ∈ s.allUpdates ↔ ∃ x, s.prefixAt p = some x ∧ x.attrs ≠ none := by
  unfold PeerPend.allUpdates
  simp only [List.mem_flatMap, h.mem_prefixesAt, Aid.mem_all, true_and]
  constructor
  · rintro ⟨a, -, x, hx, ha⟩
    exact ⟨x, hx, by rw [ha]; nofun⟩
  · rintro ⟨x, hx, hne⟩
    obtain ⟨a, ha⟩ := Option.ne_none_iff_exists'.mp hne
    obtain ⟨v, hk⟩ := h.pfx.target p x a hx ha
    exact ⟨a, ⟨x.pt.aid, (h.attr.queue x.pt.aid a).mpr ⟨_, hk⟩⟩, x, hx, ha⟩

/-- The counters are the lengths of the queues. -/
theorem PendOk.counter_eq (h : PendOk s) :
    s.pendingWithdraw = s.allWithdraws.length ∧ s.pendingUpdate = s.allUpdates.length := by
  have hmem : ∀ u p, p ∈ s.pendPrefixes.filter (s.isKind u) ↔
      ∃ x, s.prefixAt p = some x ∧ x.attrs.isSome = u := by
    intro u p
    rw [List.mem_filter, h.pfx.hash]
    constructor
    · rintro ⟨⟨⟨x, hx⟩, -⟩, hu⟩
      rw [isKind_eq hx, decide_eq_true_iff] at hu
      exact ⟨x, hx, hu⟩
    · rintro ⟨x, hx, hu⟩
      refine ⟨⟨⟨x, hx⟩, nofun⟩, ?_⟩
      rw [isKind_eq hx, decide_eq_true_iff]
      exact hu
  have hcount : ∀ (u : Bool) (l : List Addr), l.Nodup →
      (∀ p, p ∈ l ↔ ∃ x, s.prefixAt p = some x ∧ x.attrs.isSome = u) → s.counter u = l.length := by
    intro u l hl hmeml
    rw [h.pfx.counted, List.countP_eq_length_filter]
    have hperm : (s.pendPrefixes.filter (s.isKind u)).Perm l :=
      (List.perm_ext_iff_of_nodup (h.pfx.nodup.filter _) hl).mpr fun p => by rw [hmem, hmeml]
    rw [hperm.length_eq]
  constructor
  · refine hcount false _ h.allWithdraws_nodup fun p => ?_
    rw [h.mem_allWithdraws]
    simp
  · refine hcount true _ h.allUpdates_nodup fun p => ?_
    rw [h.mem_allUpdates]
    simp [Option.isSome_iff_ne_none]

section Run

variable [DecidableEq A]

/-- One operation that does not abort. -/
def PeerPend.run (s : PeerPend A) (op : PendOp A) : Option (PeerPend A) := (s.step op).toOption

/-- What is pending is on its queue once, and counted once. -/
structure QueuedOnce (ops : List (PendOp A)) (s : PeerPend A) : Prop where
  /-- no prefix and path id is on two queues, or twice on one -/
  once : ((s.allWithdraws ++ s.allUpdates).map s.keyAt).Nodup
  /-- what is on a queue is what the hash table finds -/
  found : ∀ pt id, some (pt, id) ∈ (s.allWithdraws ++ s.allUpdates).map s.keyAt ↔
    ∃ p, pendPrefixLookup s pt id = some p
  /-- the last `pend_prefix_add` says which queue it is on -/
  withdrawn : ∀ aid, ∀ p ∈ s.withdraws aid, ∃ pt id, s.keyAt p = some (pt, id) ∧ pt.aid = aid ∧
    lastAdd ops (pt, id) = some none
  updated : ∀ aid, ∀ a ∈ s.updates aid, ∃ y, s.attrAt a = some y ∧ ∀ p ∈ y.prefixes,
    ∃ pt id, s.keyAt p = some (pt, id) ∧ pt.aid = aid ∧ y.attrs ≠ none ∧
      lastAdd ops (pt, id) = some y.attrs
  added : ∀ l attrs pt id newpa newpp, ops = l ++ [.add attrs pt id newpa newpp] →
    ∃ p, pendPrefixLookup s pt id = some p
  /-- only a marker has no prefixes -/
  filled : ∀ aid, ∀ a ∈ s.updates aid, ∀ y, s.attrAt a = some y → y.prefixes = [] → y.attrs = none
  pendingWithdraw : s.pendingWithdraw = s.allWithdraws.length
  pendingUpdate : s.pendingUpdate = s.allUpdates.length

/-- What holds after a run: the last `pend_prefix_add` decides. -/
theorem run_spec {ops : List (PendOp A)} {s₀ s : PeerPend A}
    (h : Run PeerPend.run PeerPend.Fresh s₀ ops s) (hok : PendOk s₀)
    (last : PtEntry × ℕ → Option (Option A))
    (hlast : ∀ key v, s₀.Pending key v → last key = some v) :
    PendOk s ∧ ∀ key v, s.Pending key v → ops.foldl (nextAdd key) (last key) = some v := by
  induction h generalizing last with
  | nil s => exact ⟨hok, hlast⟩
  | @cons s s₁ s' op ops hfresh hstep hrun ih =>
    obtain ⟨s₂, hs₂, hok₂, hlast₂⟩ := step_spec hok hfresh
    have heq : s₂ = s₁ := by
      unfold PeerPend.run at hstep
      rw [hs₂] at hstep
      exact Option.some_inj.mp hstep
    subst heq
    exact ih hok₂ (fun key => nextAdd key (last key) op) (hlast₂ last hlast)

/-- What the last operation of a run made pending. -/
theorem added_of_run {l : List (PendOp A)} {attrs : Option A} {pt : PtEntry} {id : ℕ}
    {newpa newpp : Addr} {s₀ s : PeerPend A}
    (h : Run PeerPend.run PeerPend.Fresh s₀ (l ++ [.add attrs pt id newpa newpp]) s)
    (hok : PendOk s₀) : ∃ p, pendPrefixLookup s pt id = some p := by
  generalize hops : l ++ [PendOp.add attrs pt id newpa newpp] = ops at h
  induction h generalizing l with
  | nil s => simp at hops
  | @cons s s₁ s' op ops hfresh hstep hrun ih =>
    obtain ⟨s₂, hs₂, hok₂, -⟩ := step_spec hok hfresh
    have heq : s₂ = s₁ := by
      unfold PeerPend.run at hstep
      rw [hs₂] at hstep
      exact Option.some_inj.mp hstep
    subst heq
    cases l with
    | cons op' l =>
      rw [List.cons_append] at hops
      cases hops
      exact ih hok₂ rfl
    | nil =>
      obtain ⟨rfl, rfl⟩ := List.cons_eq_cons.mp hops
      cases hrun
      obtain ⟨s₃, hs₃, hok₃, hpending⟩ := add_spec hok hfresh.1 hfresh.2 attrs pt id
      rw [← Except.ok.inj (hs₃.symm.trans hs₂)]
      obtain ⟨p, x, hx, hkey, -⟩ := (hpending (pt, id) attrs).mpr (if_pos rfl ▸ rfl)
      obtain ⟨hpt, hid⟩ := Prod.mk.inj hkey
      exact ⟨p, hok₃.pfx.lookup_iff.mpr ⟨⟨x, hx, hpt, hid⟩, nofun⟩⟩

/-- After every run each pending prefix is on one queue and counted once, and no operation
    aborts. -/
theorem pending_once {ops : List (PendOp A)} {s : PeerPend A}
    (h : Run PeerPend.run PeerPend.Fresh {} ops s) :
    QueuedOnce ops s ∧ ∀ op, s.Fresh op → ∃ s', s.step op = .ok s' := by
  have hempty : PendOk ({} : PeerPend A) :=
    ⟨attrOk_empty, prefixOk_empty, fun a v aid hk _ => nomatch hk⟩
  obtain ⟨hok, hlast⟩ := run_spec h hempty (fun _ => none)
    fun key v ⟨p, x, hx, _⟩ => nomatch hx
  have hkeyAt : ∀ {p x}, s.prefixAt p = some x → s.keyAt p = some (x.pt, x.pathIdTx) := by
    intro p x hx
    unfold PeerPend.keyAt
    rw [hx]
    rfl
  have hread : ∀ p ∈ s.allWithdraws ++ s.allUpdates, ∃ x, s.prefixAt p = some x := by
    intro p hp
    rcases List.mem_append.mp hp with hp | hp
    · obtain ⟨x, hx, -⟩ := hok.mem_allWithdraws.mp hp
      exact ⟨x, hx⟩
    · obtain ⟨x, hx, -⟩ := hok.mem_allUpdates.mp hp
      exact ⟨x, hx⟩
  refine ⟨⟨?_, ?_, ?_, ?_, ?_, ?_, hok.counter_eq.1, hok.counter_eq.2⟩, fun op hfresh => ?_⟩
  -- no prefix is queued twice
  · apply List.Nodup.map_on
    · intro p hp q hq hkey
      obtain ⟨x, hx⟩ := hread p hp
      obtain ⟨y, hy⟩ := hread q hq
      rw [hkeyAt hx, hkeyAt hy] at hkey
      obtain ⟨hpt, hid⟩ := Prod.mk.inj (Option.some_inj.mp hkey)
      exact hok.pfx.key p q x y hx hy hpt hid
    · refine List.nodup_append.mpr ⟨hok.allWithdraws_nodup, hok.allUpdates_nodup, ?_⟩
      rintro p hp q hq rfl
      obtain ⟨x, hx, hnone⟩ := hok.mem_allWithdraws.mp hp
      obtain ⟨y, hy, hne⟩ := hok.mem_allUpdates.mp hq
      rw [hx] at hy
      cases hy
      exact hne hnone
  -- it is queued if the last operation on it has queued it
  · intro pt id
    rw [List.mem_map]
    constructor
    · rintro ⟨p, hp, hkey⟩
      obtain ⟨x, hx⟩ := hread p hp
      rw [hkeyAt hx] at hkey
      obtain ⟨hpt, hid⟩ := Prod.mk.inj (Option.some_inj.mp hkey)
      exact ⟨p, hok.pfx.lookup_iff.mpr ⟨⟨x, hx, hpt, hid⟩, nofun⟩⟩
    · rintro ⟨p, hp⟩
      obtain ⟨⟨x, hx, rfl, rfl⟩, -⟩ := hok.pfx.lookup_iff.mp hp
      refine ⟨p, List.mem_append.mpr ?_, hkeyAt hx⟩
      by_cases hnone : x.attrs = none
      · exact Or.inl (hok.mem_allWithdraws.mpr ⟨x, hx, hnone⟩)
      · exact Or.inr (hok.mem_allUpdates.mpr ⟨x, hx, hnone⟩)
  · intro aid p hp
    obtain ⟨⟨x, hx, hhead⟩, -⟩ := (hok.pfx.queue (.withdraws aid) p).mp hp
    unfold PeerPend.headOf at hhead
    split at hhead
    · next hnone =>
      refine ⟨x.pt, x.pathIdTx, hkeyAt hx, Head.withdraws.inj hhead, ?_⟩
      apply hlast (x.pt, x.pathIdTx) none
      refine ⟨p, x, hx, rfl, ?_⟩
      unfold PeerPend.valueOf
      rw [hnone]
      rfl
    · exact nomatch hhead
  · intro aid a ha
    obtain ⟨y, hy⟩ := hok.exists_attr ha
    refine ⟨y, hy, fun p hp => ?_⟩
    rw [← prefixesAt_eq hy] at hp
    obtain ⟨x, hx, hxa⟩ := hok.mem_prefixesAt.mp hp
    obtain ⟨v, hk, hvalue⟩ := hok.pfx.value_of_attrs hx hxa
    obtain ⟨w, hk'⟩ := (hok.attr.queue aid a).mp ha
    rw [kind_eq hy] at hk hk'
    obtain ⟨hattrs, haid⟩ := Prod.mk.inj (Option.some_inj.mp hk)
    obtain ⟨-, haid'⟩ := Prod.mk.inj (Option.some_inj.mp hk')
    refine ⟨x.pt, x.pathIdTx, hkeyAt hx, haid.symm.trans haid', by rw [hattrs]; nofun, ?_⟩
    rw [hattrs]
    exact hlast (x.pt, x.pathIdTx) (some v) ⟨p, x, hx, rfl, hvalue.symm⟩
  · rintro l attrs pt id newpa newpp rfl
    exact added_of_run h hempty
  · intro aid a _ y hy hnil
    by_contra hne
    obtain ⟨v, hv⟩ := Option.ne_none_iff_exists'.mp hne
    apply hok.filled a v y.aid (by rw [kind_eq hy, hv]) not_false
    rw [prefixesAt_eq hy, hnil]
  · obtain ⟨s', hs', -⟩ := step_spec hok hfresh
    exact ⟨s', hs'⟩

/-- An update for 10.0.0.0/8, and another one for it with the same attributes. -/
theorem pending_once_sample :
    ∃ s : PeerPend ℕ, s.pendingUpdate = 1 ∧ QueuedOnce
      [.add (some 1) ⟨.inet, 10, 8⟩ 0 100 200, .add (some 1) ⟨.inet, 10, 8⟩ 0 101 201] s := by
  obtain ⟨s₁, hs₁⟩ : ∃ s₁ : PeerPend ℕ,
      PeerPend.run {} (.add (some 1) ⟨.inet, 10, 8⟩ 0 100 200) = some s₁ := ⟨_, rfl⟩
  have h₁ :
      s₁ = (PeerPend.run ({} : PeerPend ℕ) (.add (some 1) ⟨.inet, 10, 8⟩ 0 100 200)).get rfl :=
    (Option.some_inj.mp ((Option.some_get _).trans hs₁)).symm
  have hfresh : s₁.Fresh (.add (some 1) ⟨.inet, 10, 8⟩ 0 101 201) := by
    rw [h₁]
    exact ⟨rfl, rfl⟩
  obtain ⟨s₂, hs₂⟩ : ∃ s₂, s₁.run (.add (some 1) ⟨.inet, 10, 8⟩ 0 101 201) = some s₂ := by
    rw [h₁]
    exact ⟨_, rfl⟩
  have hfresh₀ : ({} : PeerPend ℕ).Fresh (.add (some 1) ⟨.inet, 10, 8⟩ 0 100 200) := ⟨rfl, rfl⟩
  refine ⟨s₂, ?_, (pending_once (Run.cons hfresh₀ hs₁ (Run.cons hfresh hs₂ (Run.nil s₂)))).1⟩
  rw [h₁] at hs₂
  cases hs₂
  rfl

end Run

end Bgpd.Rde.Pend
