import Mathlib.Data.List.Nodup
import Mathlib.Order.Nat
import Mathlib.Tactic.SplitIfs
import Bgpd.Lib.AssocList

/-!
# Tables of Interned Values

A table keeps one object for each value, so that values are compared by the addresses of their
objects. An object is found by a hash and a comparison of what is stored; two stored values may
have the same content, but a different hash, or not compare equal. The table is canonical if no
two objects have the same content.

## Main results

- `canonical_get_iff`: when a lookup keeps the table canonical
- `Canonical.addr_eq_iff`: in a canonical table, addresses are equal if and only if contents are
- `Canonical.ref`, `Canonical.unref`: references
- `Held.unref`, `Held.unref_cons`: objects with references are not removed
-/

namespace Bgpd.Lib

universe u v

/-- How stored values are found: their content, their hash and the comparison. -/
structure InternKey (V : Type u) (C : Type v) where
  content : V → C
  hash : V → ℕ
  eq : V → V → Bool
  eq_sound : ∀ a b, eq a b = true → content a = content b

/-- An object of a table. -/
structure Interned (V : Type u) where
  addr : ℕ
  val : V
  refcnt : ℕ := 0
  deriving DecidableEq

namespace InternKey

variable {V : Type u} {C : Type v} (K : InternKey V C) {t t' : List (Interned V)}
  {e e' : Interned V} {v w : V} {a r : ℕ}

/-- The stored value is found when the other one is looked up. -/
def same (v w : V) : Bool := K.hash v = K.hash w && K.eq v w

/-- Look up a value. -/
def find (v : V) (t : List (Interned V)) : Option (Interned V) := t.find? fun e => K.same e.val v

/-- Look up a value, and insert an object at a new address if there is none: the address of the
    object, and the table. -/
def get (addr : ℕ) (v : V) (t : List (Interned V)) : Option (ℕ × List (Interned V)) :=
  match K.find v t with
  | some e => some (e.addr, t)
  | none => if addr ∈ t.map (·.addr) then none else some (addr, { addr := addr, val := v } :: t)

/-- One more reference. -/
def ref (a : ℕ) (t : List (Interned V)) : List (Interned V) :=
  t.map fun e => if e.addr = a then { e with refcnt := e.refcnt + 1 } else e

/-- One reference less; the object is removed with the last one. -/
def unref (a : ℕ) (t : List (Interned V)) : List (Interned V) :=
  (t.map fun e => if e.addr = a then { e with refcnt := e.refcnt - 1 } else e).filter fun e =>
    ¬(e.addr = a ∧ e.refcnt = 0)

/-- No two objects have the same content. -/
def Canonical (t : List (Interned V)) : Prop :=
  ∀ e ∈ t, ∀ e' ∈ t, K.content e.val = K.content e'.val → e.addr = e'.addr

variable {K}

theorem same_sound (h : K.same v w = true) : K.content v = K.content w := by
  rw [same, Bool.and_eq_true] at h
  exact K.eq_sound v w h.2

theorem find_some (h : K.find v t = some e) : e ∈ t ∧ K.same e.val v = true := by
  unfold find at h
  have hsame := List.find?_some h
  exact ⟨List.mem_of_find?_eq_some h, hsame⟩

/-- The table stays as it is, or a new object is in front of it. -/
theorem get_cases (h : K.get a v t = some (r, t')) :
    (∃ e ∈ t, K.same e.val v = true ∧ r = e.addr ∧ t' = t) ∨
      (∀ e ∈ t, K.same e.val v = false) ∧ a ∉ t.map (·.addr) ∧ r = a ∧
        t' = { addr := a, val := v } :: t := by
  unfold get at h
  cases hfind : K.find v t with
  | some e =>
    rw [hfind] at h
    cases h
    exact Or.inl ⟨e, (find_some hfind).1, (find_some hfind).2, rfl, rfl⟩
  | none =>
    rw [hfind] at h
    dsimp only at h
    split_ifs at h with ha
    cases h
    refine Or.inr ⟨fun e he => ?_, ha, rfl, rfl⟩
    simpa using List.find?_eq_none.mp hfind e he

/-- The object that is returned has the content of the value, and objects stay. -/
theorem get_spec (h : K.get a v t = some (r, t')) :
    (∃ e ∈ t', e.addr = r ∧ K.content e.val = K.content v) ∧ ∀ e ∈ t, e ∈ t' := by
  rcases get_cases h with ⟨e, he, hsame, rfl, rfl⟩ | ⟨-, -, rfl, rfl⟩
  · exact ⟨⟨e, he, rfl, same_sound hsame⟩, fun _ h => h⟩
  · exact ⟨⟨_, List.mem_cons_self, rfl, rfl⟩, fun e he => List.mem_cons_of_mem _ he⟩

theorem get_addrs (h : K.get a v t = some (r, t')) (hnd : (t.map (·.addr)).Nodup) :
    (t'.map (·.addr)).Nodup := by
  rcases get_cases h with ⟨e, -, -, -, rfl⟩ | ⟨-, hfresh, -, rfl⟩
  · exact hnd
  · exact List.nodup_cons.mpr ⟨hfresh, hnd⟩

/-- A lookup keeps the table canonical if and only if an object with the content of the value is
    found by it. -/
theorem canonical_get_iff (hc : K.Canonical t) (h : K.get a v t = some (r, t')) :
    K.Canonical t' ↔ ∀ e ∈ t, K.content e.val = K.content v → ∃ e' ∈ t, e'.addr = e.addr ∧
      K.same e'.val v = true := by
  rcases get_cases h with ⟨e, he, hsame, rfl, rfl⟩ | ⟨hnone, hfresh, rfl, rfl⟩
  · refine ⟨fun _ e' he' hcont => ⟨e, he, ?_, hsame⟩, fun _ => hc⟩
    exact hc e he e' he' ((same_sound hsame).trans hcont.symm)
  · constructor
    · intro hcan e he hcont
      have haddr := hcan e (List.mem_cons_of_mem _ he) _ List.mem_cons_self hcont
      exact absurd (List.mem_map.mpr ⟨e, he, haddr⟩) hfresh
    · intro hall
      -- there is no object with this content yet
      have hno : ∀ e ∈ t, K.content e.val ≠ K.content v := fun e he hcont => by
        obtain ⟨e', he', -, hsame⟩ := hall e he hcont
        rw [hnone e' he'] at hsame
        cases hsame
      intro e he e' he' hcont
      rcases List.mem_cons.mp he with rfl | he
      · rcases List.mem_cons.mp he' with rfl | he'
        · rfl
        · exact absurd hcont.symm (hno e' he')
      · rcases List.mem_cons.mp he' with rfl | he'
        · exact absurd hcont (hno e he)
        · exact hc e he e' he' hcont

/-- Addresses stand for contents. -/
theorem Canonical.addr_eq_iff (hc : K.Canonical t) (hnd : (t.map (·.addr)).Nodup) (he : e ∈ t)
    (he' : e' ∈ t) : e.addr = e'.addr ↔ K.content e.val = K.content e'.val := by
  constructor
  · intro haddr
    rw [List.inj_on_of_nodup_map hnd he he' haddr]
  · exact hc e he e' he'

/-- The objects of one table are objects of another one, but for their references. -/
def Sub (t' t : List (Interned V)) : Prop :=
  ∀ e' ∈ t', ∃ e ∈ t, e.addr = e'.addr ∧ e.val = e'.val

theorem Canonical.sub (hc : K.Canonical t) (h : Sub t' t) : K.Canonical t' := by
  intro e he e' he' hcont
  obtain ⟨x, hx, haddr, hval⟩ := h e he
  obtain ⟨x', hx', haddr', hval'⟩ := h e' he'
  rw [← haddr, ← haddr']
  exact hc x hx x' hx' (by rw [hval, hval', hcont])

theorem mem_ref (h : e ∈ t) : ∃ e' ∈ ref a t, e'.addr = e.addr ∧ e'.val = e.val ∧
    e'.refcnt = if e.addr = a then e.refcnt + 1 else e.refcnt := by
  refine ⟨_, List.mem_map_of_mem h, ?_⟩
  split_ifs <;> exact ⟨rfl, rfl, rfl⟩

theorem of_mem_ref (h : e' ∈ ref a t) : ∃ e ∈ t, e.addr = e'.addr ∧ e.val = e'.val ∧
    e'.refcnt = if e.addr = a then e.refcnt + 1 else e.refcnt := by
  obtain ⟨e, he, rfl⟩ := List.mem_map.mp h
  refine ⟨e, he, ?_⟩
  split_ifs <;> exact ⟨rfl, rfl, rfl⟩

theorem of_mem_unref (h : e' ∈ unref a t) : ∃ e ∈ t, e.addr = e'.addr ∧ e.val = e'.val ∧
    e'.refcnt = (if e.addr = a then e.refcnt - 1 else e.refcnt) ∧
    ¬(e.addr = a ∧ e'.refcnt = 0) := by
  obtain ⟨h, hkeep⟩ := List.mem_filter.mp h
  obtain ⟨e, he, rfl⟩ := List.mem_map.mp h
  refine ⟨e, he, ?_⟩
  have hkeep := of_decide_eq_true hkeep
  split_ifs at hkeep ⊢ with ha
  · exact ⟨rfl, rfl, rfl, hkeep⟩
  · exact ⟨rfl, rfl, rfl, hkeep⟩

/-- An object with references left stays. -/
theorem mem_unref (h : e ∈ t) (href : e.addr = a → 1 < e.refcnt) : ∃ e' ∈ unref a t,
    e'.addr = e.addr ∧ e'.val = e.val ∧
    e'.refcnt = if e.addr = a then e.refcnt - 1 else e.refcnt := by
  refine ⟨_, List.mem_filter.mpr ⟨List.mem_map_of_mem h, decide_eq_true ?_⟩, ?_⟩
  · split_ifs with ha
    · rintro ⟨-, hzero⟩
      have hpos := href ha
      dsimp only at hzero
      exact absurd (Nat.sub_eq_zero_iff_le.mp hzero) (Nat.not_le.mpr hpos)
    · exact fun h => ha h.1
  · split_ifs <;> exact ⟨rfl, rfl, rfl⟩

theorem map_addr_ref (a : ℕ) (t : List (Interned V)) :
    (ref a t).map (·.addr) = t.map (·.addr) := by
  rw [ref, List.map_map]
  apply List.map_congr_left
  intro e _
  rw [Function.comp_apply]
  split_ifs <;> rfl

theorem unref_addrs (hnd : (t.map (·.addr)).Nodup) : ((unref a t).map (·.addr)).Nodup := by
  refine List.Nodup.sublist (List.filter_sublist.map _) ?_
  rw [List.map_map]
  refine (List.map_congr_left fun e _ => ?_) ▸ hnd
  rw [Function.comp_apply]
  split_ifs <;> rfl

theorem Canonical.ref (hc : K.Canonical t) : K.Canonical (ref a t) :=
  hc.sub fun _ h => by
    obtain ⟨e, he, haddr, hval, -⟩ := of_mem_ref h
    exact ⟨e, he, haddr, hval⟩

theorem Canonical.unref (hc : K.Canonical t) : K.Canonical (unref a t) :=
  hc.sub fun _ h => by
    obtain ⟨e, he, haddr, hval, -⟩ := of_mem_unref h
    exact ⟨e, he, haddr, hval⟩

theorem canonical_ref_iff : K.Canonical (InternKey.ref a t) ↔ K.Canonical t := by
  refine ⟨fun hc => hc.sub fun e he => ?_, Canonical.ref⟩
  obtain ⟨e', he', haddr, hval, -⟩ := mem_ref (a := a) he
  exact ⟨e', he', haddr, hval⟩

/-- An object and the other ones. -/
theorem perm_cons_filter (hnd : (t.map (·.addr)).Nodup) (he : e ∈ t) :
    t.Perm (e :: t.filter fun e' => e'.addr ≠ e.addr) :=
  perm_cons_filter_ne hnd he

/-- The addresses `l` are references that someone holds. -/
structure Held (t : List (Interned V)) (l : List ℕ) : Prop where
  live : ∀ a ∈ l, a ∈ t.map (·.addr)
  count : ∀ e ∈ t, l.count e.addr ≤ e.refcnt

variable {l l' : List ℕ}

theorem Held.perm (h : Held t l) (hp : l.Perm l') : Held t l' where
  live b hb := h.live b (hp.mem_iff.mpr hb)
  count e he := hp.count_eq e.addr ▸ h.count e he

theorem Held.get (h : Held t l) (hget : K.get a v t = some (r, t')) : Held t' l := by
  rcases get_cases hget with ⟨e, -, -, -, rfl⟩ | ⟨-, hfresh, -, rfl⟩
  · exact h
  · refine ⟨fun b hb => List.mem_cons_of_mem _ (h.live b hb), fun e he => ?_⟩
    rcases List.mem_cons.mp he with rfl | he
    · -- no one knows the new address yet
      exact (List.count_eq_zero.mpr fun hmem => hfresh (h.live a hmem)).le
    · exact h.count e he

theorem Held.ref (h : Held t l) : Held (InternKey.ref a t) l where
  live b hb := by rw [map_addr_ref]; exact h.live b hb
  count e' he' := by
    obtain ⟨e, he, haddr, -, hcnt⟩ := of_mem_ref he'
    have hle := h.count e he
    rw [← haddr, hcnt]
    split_ifs
    · exact hle.trans (Nat.le_succ _)
    · exact hle

theorem Held.ref_cons (h : Held t l) (ha : a ∈ t.map (·.addr)) :
    Held (InternKey.ref a t) (a :: l) where
  live b hb := by
    rw [map_addr_ref]
    rcases List.mem_cons.mp hb with rfl | hb
    · exact ha
    · exact h.live b hb
  count e' he' := by
    obtain ⟨e, he, haddr, -, hcnt⟩ := of_mem_ref he'
    have hle := h.count e he
    rw [← haddr, hcnt]
    split_ifs with hea
    · rw [hea, List.count_cons_self]
      exact Nat.succ_le_succ (hea ▸ hle)
    · rw [List.count_cons_of_ne fun heq => hea heq.symm]
      exact hle

/-- A reference that is not among these is given back. -/
theorem Held.unref (h : Held t l) (hfree : ∀ e ∈ t, e.addr = a → l.count a < e.refcnt) :
    Held (InternKey.unref a t) l where
  live b hb := by
    obtain ⟨e, he, rfl⟩ := List.mem_map.mp (h.live b hb)
    have hpos : 0 < l.count e.addr := List.count_pos_iff.mpr hb
    obtain ⟨e', he', haddr, -⟩ := mem_unref (a := a) he fun hea =>
      lt_of_le_of_lt (Nat.succ_le_of_lt (hea ▸ hpos)) (hfree e he hea)
    exact List.mem_map.mpr ⟨e', he', haddr⟩
  count e' he' := by
    obtain ⟨e, he, haddr, -, hcnt, -⟩ := of_mem_unref he'
    rw [← haddr, hcnt]
    split_ifs with hea
    · exact Nat.le_sub_one_of_lt (hea ▸ hfree e he hea)
    · exact h.count e he

/-- One of the references is given back. -/
theorem Held.unref_cons (h : Held t (a :: l)) : Held (InternKey.unref a t) l := by
  have hl : Held t l := ⟨fun b hb => h.live b (List.mem_cons_of_mem _ hb),
    fun e he => List.count_le_count_cons.trans (h.count e he)⟩
  apply hl.unref
  intro e he hea
  have hle := h.count e he
  rw [hea, List.count_cons_self] at hle
  exact hle

end InternKey

end Bgpd.Lib
