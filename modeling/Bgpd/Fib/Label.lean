import Mathlib.Data.List.Nodup
import Mathlib.Tactic.Linarith
import Mathlib.Tactic.Ring
import Mathlib.Tactic.SplitIfs

/-!
# Route Labels

The lists of `name2id.c`, which give a name a small number as long as it is in use. The list is
ordered by number; a new name takes the smallest free one. Every entry counts its references: the
lookup of a name takes one and `_unref` gives one back.

## Main results

- `LabelsOk`: numbers and names are distinct, and every entry is referenced
- `name2id_spec`, `unref_spec`: what the two operations do to the references and the names
-/

namespace Bgpd.Fib

/-- `struct n2id_label`. The counter is an `int` in the source and has no bound here: what is said
    holds as long as a label has fewer than `2 ^ 31` references. -/
structure N2idLabel where
  name : String
  id : ℕ
  ref : ℤ
  deriving DecidableEq, Repr

/-- `IDVAL_MAX` -/
def idvalMax : ℕ := 50000

/-- The entry that is used first counts one more reference. -/
def addRef (p : N2idLabel → Bool) : List N2idLabel → List N2idLabel
  | [] => []
  | label :: head => if p label then { label with ref := label.ref + 1 } :: head
    else label :: addRef p head

/-- The first free number from `newId` on, and the list with a new entry for it. -/
def newLabel (name : String) : ℕ → List N2idLabel → ℕ × List N2idLabel
  | newId, [] => (newId, [⟨name, newId, 1⟩])
  | newId, p :: head =>
    if p.id ≠ newId then (newId, ⟨name, newId, 1⟩ :: p :: head)
    else ((newLabel name (newId + 1) head).1, p :: (newLabel name (newId + 1) head).2)

/-- `_name2id` -/
def name2id (head : List N2idLabel) (name : String) : ℕ × List N2idLabel :=
  if name = "" then (0, head)
  else
    match head.find? fun label => name = label.name with
    | some label => (label.id, addRef (fun label => name = label.name) head)
    | none =>
      if (newLabel name 1 head).1 > idvalMax then (0, head) else newLabel name 1 head

/-- `_id2name` -/
def id2name (head : List N2idLabel) (id : ℕ) : String :=
  if id = 0 then ""
  else
    match head.find? fun label => label.id = id with
    | some label => label.name
    | none => ""

/-- The loop of `_unref` -/
def dropRef (id : ℕ) : List N2idLabel → List N2idLabel
  | [] => []
  | p :: head =>
    if id = p.id then
      if p.ref - 1 = 0 then head else { p with ref := p.ref - 1 } :: head
    else p :: dropRef id head

/-- `_unref` -/
def unref (head : List N2idLabel) (id : ℕ) : List N2idLabel :=
  if id = 0 then head else dropRef id head

/-- The references of a number. -/
def refs : List N2idLabel → ℕ → ℤ
  | [], _ => 0
  | p :: head, id => (if p.id = id then p.ref else 0) + refs head id

/-- The list is ordered by number, starting from `lo`; every entry has a name and is used. -/
structure LabelsFrom (lo : ℕ) (head : List N2idLabel) : Prop where
  sorted : head.Pairwise fun a b => a.id < b.id
  names : head.Pairwise fun a b => a.name ≠ b.name
  lo : ∀ p ∈ head, lo ≤ p.id
  used : ∀ p ∈ head, 0 < p.ref
  named : ∀ p ∈ head, p.name ≠ ""

/-- The list of labels is in order. -/
abbrev LabelsOk (head : List N2idLabel) : Prop := LabelsFrom 1 head

namespace LabelsFrom

variable {lo : ℕ} {p : N2idLabel} {head : List N2idLabel}

theorem nil (lo : ℕ) : LabelsFrom lo [] :=
  ⟨List.Pairwise.nil, List.Pairwise.nil, by simp, by simp, by simp⟩

/-- A list is in order if its head is and the rest lies above it. -/
theorem cons_iff : LabelsFrom lo (p :: head) ↔
    (lo ≤ p.id ∧ 0 < p.ref ∧ p.name ≠ "" ∧ ∀ q ∈ head, p.name ≠ q.name) ∧
      LabelsFrom (p.id + 1) head := by
  constructor
  · intro h
    obtain ⟨hlt, hsorted⟩ := List.pairwise_cons.mp h.sorted
    obtain ⟨hne, hnames⟩ := List.pairwise_cons.mp h.names
    have hhead : p ∈ p :: head := List.mem_cons_self
    exact ⟨⟨h.lo p hhead, h.used p hhead, h.named p hhead, hne⟩, hsorted, hnames,
      fun q hq => hlt q hq, fun q hq => h.used q (List.mem_cons_of_mem _ hq),
      fun q hq => h.named q (List.mem_cons_of_mem _ hq)⟩
  · rintro ⟨⟨hlo, hused, hnamed, hne⟩, h⟩
    refine ⟨List.pairwise_cons.mpr ⟨fun q hq => h.lo q hq, h.sorted⟩,
      List.pairwise_cons.mpr ⟨hne, h.names⟩, ?_, ?_, ?_⟩
    · rw [List.forall_mem_cons]
      exact ⟨hlo, fun q hq => by have := h.lo q hq; omega⟩
    · rw [List.forall_mem_cons]
      exact ⟨hused, h.used⟩
    · rw [List.forall_mem_cons]
      exact ⟨hnamed, h.named⟩

/-- The numbers are larger than a smaller bound. -/
theorem mono {lo' : ℕ} (h : LabelsFrom lo head) (hlo : lo' ≤ lo) : LabelsFrom lo' head :=
  ⟨h.sorted, h.names, fun p hp => hlo.trans (h.lo p hp), h.used, h.named⟩

/-- Entries with one number are the same. -/
theorem eq_of_id {q : N2idLabel} (h : LabelsFrom lo head) (hp : p ∈ head) (hq : q ∈ head)
    (hid : p.id = q.id) : p = q :=
  List.inj_on_of_nodup_map (List.pairwise_map.mpr (h.sorted.imp fun hlt => hlt.ne)) hp hq hid

/-- Entries with one name are the same. -/
theorem eq_of_name {q : N2idLabel} (h : LabelsFrom lo head) (hp : p ∈ head) (hq : q ∈ head)
    (hname : p.name = q.name) : p = q :=
  List.inj_on_of_nodup_map (List.pairwise_map.mpr h.names) hp hq hname

/-- The number zero is the empty label. -/
theorem id_ne_zero (h : LabelsOk head) (hp : p ∈ head) : p.id ≠ 0 := by
  have := h.lo p hp
  omega

end LabelsFrom

variable {lo : ℕ} {head : List N2idLabel}

/-! ## References -/

theorem refs_of_mem (h : LabelsFrom lo head) {p : N2idLabel} (hp : p ∈ head) :
    refs head p.id = p.ref := by
  induction head generalizing lo with
  | nil => cases hp
  | cons q head ih =>
    obtain ⟨-, htail⟩ := LabelsFrom.cons_iff.mp h
    rw [refs]
    rcases List.mem_cons.mp hp with rfl | hp
    · have hzero : ∀ l : List N2idLabel, (∀ q ∈ l, p.id < q.id) → refs l p.id = 0 := by
        intro l hl
        induction l with
        | nil => rfl
        | cons q l ih =>
          have hne := hl q List.mem_cons_self
          rw [refs, if_neg (by omega), ih fun r hr => hl r (List.mem_cons_of_mem _ hr)]
          rfl
      rw [if_pos rfl, hzero head fun q hq => htail.lo q hq, add_zero]
    · have hlt := htail.lo p hp
      rw [if_neg (by omega), ih htail hp, zero_add]

theorem refs_of_forall_ne {id : ℕ} (h : ∀ p ∈ head, p.id ≠ id) : refs head id = 0 := by
  induction head with
  | nil => rfl
  | cons q head ih =>
    rw [refs, if_neg (h q List.mem_cons_self), ih fun p hp => h p (List.mem_cons_of_mem _ hp)]
    rfl

/-- A number is in the list exactly when it has references. -/
theorem refs_pos_iff (h : LabelsFrom lo head) {id : ℕ} :
    0 < refs head id ↔ ∃ p ∈ head, p.id = id := by
  constructor
  · intro hpos
    by_contra hno
    rw [refs_of_forall_ne fun p hp hid => hno ⟨p, hp, hid⟩] at hpos
    exact absurd hpos (lt_irrefl 0)
  · rintro ⟨p, hp, rfl⟩
    rw [refs_of_mem h hp]
    exact h.used p hp

/-! ## Names -/

theorem id2name_of_mem (h : LabelsOk head) {p : N2idLabel} (hp : p ∈ head) :
    id2name head p.id = p.name := by
  have hzero : p.id ≠ 0 := h.id_ne_zero hp
  rw [id2name, if_neg hzero]
  cases hfind : head.find? fun label => label.id = p.id with
  | none => simpa using List.find?_eq_none.mp hfind p hp
  | some q =>
    have hid : q.id = p.id := by simpa using List.find?_some hfind
    rw [h.eq_of_id (List.mem_of_find?_eq_some hfind) hp hid]

theorem id2name_of_forall_ne {id : ℕ} (h : ∀ p ∈ head, p.id ≠ id) : id2name head id = "" := by
  unfold id2name
  split_ifs
  · rfl
  · have hfind : (head.find? fun label => label.id = id) = none := by
      rw [List.find?_eq_none]
      intro p hp
      simpa using h p hp
    rw [hfind]

/-! ## Taking a reference -/

theorem addRef_mem {p : N2idLabel → Bool} {q : N2idLabel} (hq : q ∈ addRef p head) :
    ∃ q' ∈ head, q.id = q'.id ∧ q.name = q'.name ∧ q'.ref ≤ q.ref := by
  induction head with
  | nil => cases hq
  | cons l head ih =>
    rw [addRef] at hq
    split_ifs at hq
    · rcases List.mem_cons.mp hq with rfl | hq
      · exact ⟨l, List.mem_cons_self, rfl, rfl, by simp⟩
      · exact ⟨q, List.mem_cons_of_mem _ hq, rfl, rfl, le_refl _⟩
    · rcases List.mem_cons.mp hq with rfl | hq
      · exact ⟨q, List.mem_cons_self, rfl, rfl, le_refl _⟩
      · obtain ⟨q', hq', h⟩ := ih hq
        exact ⟨q', List.mem_cons_of_mem _ hq', h⟩

theorem addRef_ok (h : LabelsFrom lo head) (p : N2idLabel → Bool) :
    LabelsFrom lo (addRef p head) := by
  induction head generalizing lo with
  | nil => exact h
  | cons l head ih =>
    obtain ⟨⟨hlo, hused, hnamed, hne⟩, htail⟩ := LabelsFrom.cons_iff.mp h
    rw [addRef]
    split_ifs
    · exact LabelsFrom.cons_iff.mpr ⟨⟨hlo, by simpa using hused.trans (lt_add_one _), hnamed, hne⟩,
        htail⟩
    · refine LabelsFrom.cons_iff.mpr ⟨⟨hlo, hused, hnamed, fun q hq => ?_⟩, ih htail⟩
      obtain ⟨q', hq', -, hname, -⟩ := addRef_mem hq
      rw [hname]
      exact hne q' hq'

theorem addRef_name_mem {p : N2idLabel → Bool} {q : N2idLabel} (hq : q ∈ head) :
    ∃ q' ∈ addRef p head, q'.id = q.id ∧ q'.name = q.name := by
  induction head with
  | nil => cases hq
  | cons l head ih =>
    rw [addRef]
    split_ifs
    · rcases List.mem_cons.mp hq with rfl | hq
      · exact ⟨_, List.mem_cons_self, rfl, rfl⟩
      · exact ⟨q, List.mem_cons_of_mem _ hq, rfl, rfl⟩
    · rcases List.mem_cons.mp hq with rfl | hq
      · exact ⟨q, List.mem_cons_self, rfl, rfl⟩
      · obtain ⟨q', hq', h⟩ := ih hq
        exact ⟨q', List.mem_cons_of_mem _ hq', h⟩

theorem refs_addRef {p : N2idLabel → Bool} {label : N2idLabel} (hfind : head.find? p = some label)
    (id : ℕ) : refs (addRef p head) id = refs head id + if label.id = id then 1 else 0 := by
  induction head with
  | nil => cases hfind
  | cons l head ih =>
    by_cases hp : p l
    · rw [List.find?_cons_of_pos hp, Option.some.injEq] at hfind
      subst hfind
      rw [addRef, if_pos hp, refs, refs]
      dsimp only
      split_ifs <;> ring
    · rw [List.find?_cons_of_neg hp] at hfind
      rw [addRef, if_neg hp, refs, refs, ih hfind]
      ring

/-! ## A new entry -/

theorem newLabel_lo (name : String) (n : ℕ) (head : List N2idLabel) :
    n ≤ (newLabel name n head).1 := by
  induction head generalizing n with
  | nil => exact le_refl n
  | cons p head ih =>
    rw [newLabel]
    split_ifs
    · exact le_refl n
    · exact (Nat.le_succ n).trans (ih (n + 1))

/-- The new entry is added to those that are there. -/
theorem newLabel_perm (name : String) (n : ℕ) (head : List N2idLabel) :
    (newLabel name n head).2.Perm (⟨name, (newLabel name n head).1, 1⟩ :: head) := by
  induction head generalizing n with
  | nil => exact List.Perm.refl _
  | cons p head ih =>
    rw [newLabel]
    split_ifs
    · exact List.Perm.refl _
    · exact ((ih (n + 1)).cons p).trans (List.Perm.swap _ _ _)

/-- A new name goes into the first gap of the ids. -/
theorem newLabel_ok (h : LabelsFrom lo head) {name : String} (hname : name ≠ "")
    (hnew : ∀ p ∈ head, p.name ≠ name) : LabelsFrom lo (newLabel name lo head).2 := by
  induction head generalizing lo with
  | nil =>
    refine LabelsFrom.cons_iff.mpr ⟨⟨le_refl _, one_pos, hname, by simp⟩, LabelsFrom.nil _⟩
  | cons p head ih =>
    obtain ⟨⟨hlo, hused, hnamed, hne⟩, htail⟩ := LabelsFrom.cons_iff.mp h
    rw [newLabel]
    split_ifs with hid
    · refine LabelsFrom.cons_iff.mpr ⟨⟨le_refl _, one_pos, hname, fun q hq => ?_⟩,
        LabelsFrom.cons_iff.mpr ⟨⟨by dsimp only; omega, hused, hnamed, hne⟩, htail⟩⟩
      exact (hnew q hq).symm
    · -- the slot is taken by `p`: the new entry comes behind it
      obtain rfl := not_not.mp hid
      have hih := ih htail fun q hq => hnew q (List.mem_cons_of_mem _ hq)
      refine LabelsFrom.cons_iff.mpr ⟨⟨le_refl _, hused, hnamed, fun q hq => ?_⟩, hih⟩
      rcases List.mem_cons.mp ((newLabel_perm _ _ _).mem_iff.mp hq) with rfl | hq
      · exact hnew p List.mem_cons_self
      · exact hne q hq

theorem refs_perm {l l' : List N2idLabel} (h : l.Perm l') (id : ℕ) : refs l id = refs l' id := by
  induction h with
  | nil => rfl
  | cons x _ ih => rw [refs, refs, ih]
  | swap x y l => simp only [refs]; ring
  | trans _ _ ih₁ ih₂ => rw [ih₁, ih₂]

/-! ## The two operations -/

/-- What a lookup does: it takes one reference, and every number that is in use keeps its name. -/
structure Looked (head : List N2idLabel) (name : String) (id : ℕ) (head' : List N2idLabel) : Prop
    where
  ok : LabelsOk head'
  refs : ∀ i, i ≠ 0 → refs head' i = refs head i + if id = i then 1 else 0
  name : id ≠ 0 → id2name head' id = name
  names : ∀ i, 0 < Fib.refs head i → id2name head' i = id2name head i

/-- A known name gets its own id with one reference more, a new one the least free id. -/
theorem name2id_spec (h : LabelsOk head) (name : String) :
    Looked head name (name2id head name).1 (name2id head name).2 := by
  have hsame : Looked head name 0 head :=
    ⟨h, fun i hi => by simp [hi.symm], fun hne => absurd rfl hne, fun i _ => rfl⟩
  unfold name2id
  by_cases hname : name = ""
  · rw [if_pos hname]
    exact hsame
  · rw [if_neg hname]
    cases hfind : head.find? fun label => name = label.name with
    -- a known name: one more reference to its label
    | some label =>
      dsimp only
      have hmem : label ∈ head := List.mem_of_find?_eq_some hfind
      have hlabel : name = label.name := by simpa using List.find?_some hfind
      have hok := addRef_ok h fun label => name = label.name
      -- counting a reference changes no number and no name
      have hnames : ∀ p ∈ head, id2name (addRef (fun label => name = label.name) head) p.id
          = p.name := by
        intro p hp
        obtain ⟨q, hq, hid, hqname⟩ :=
          addRef_name_mem (p := fun label => name = label.name) hp
        rw [← hid, id2name_of_mem hok hq, hqname]
      refine ⟨hok, fun i _ => refs_addRef hfind i, fun _ => ?_, fun i hi => ?_⟩
      · rw [hnames label hmem, hlabel]
      · obtain ⟨p, hp, rfl⟩ := (refs_pos_iff h).mp hi
        rw [hnames p hp, id2name_of_mem h hp]
    -- a new name: it gets the least number that is free
    | none =>
      have hnew : ∀ p ∈ head, p.name ≠ name := fun p hp hpname => by
        simpa [hpname] using List.find?_eq_none.mp hfind p hp
      dsimp only
      -- all numbers are in use
      split_ifs with hmax
      · exact hsame
      · have hok := newLabel_ok h hname hnew
        have hperm := newLabel_perm name 1 head
        have hself : (⟨name, (newLabel name 1 head).1, 1⟩ : N2idLabel) ∈ (newLabel name 1 head).2 :=
          hperm.mem_iff.mpr List.mem_cons_self
        refine ⟨hok, fun i _ => ?_, fun _ => id2name_of_mem hok hself, fun i hi => ?_⟩
        · rw [refs_perm hperm, Fib.refs]
          ring
        · obtain ⟨p, hp, rfl⟩ := (refs_pos_iff h).mp hi
          rw [id2name_of_mem hok (hperm.mem_iff.mpr (List.mem_cons_of_mem _ hp)),
            id2name_of_mem h hp]

/-- What giving a reference back does: the entry goes with its last reference. -/
structure Dropped (head : List N2idLabel) (id : ℕ) (head' : List N2idLabel) : Prop where
  ok : LabelsOk head'
  refs : ∀ i, i ≠ 0 → refs head' i = refs head i - if id = i ∧ 0 < Fib.refs head i then 1 else 0
  names : ∀ i, 0 < Fib.refs head' i → id2name head' i = id2name head i

theorem dropRef_mem {id : ℕ} {q : N2idLabel} (hq : q ∈ dropRef id head) :
    ∃ q' ∈ head, q.id = q'.id ∧ q.name = q'.name := by
  induction head with
  | nil => cases hq
  | cons l head ih =>
    rw [dropRef] at hq
    split_ifs at hq
    · exact ⟨q, List.mem_cons_of_mem _ hq, rfl, rfl⟩
    · rcases List.mem_cons.mp hq with rfl | hq
      · exact ⟨l, List.mem_cons_self, rfl, rfl⟩
      · exact ⟨q, List.mem_cons_of_mem _ hq, rfl, rfl⟩
    · rcases List.mem_cons.mp hq with rfl | hq
      · exact ⟨q, List.mem_cons_self, rfl, rfl⟩
      · obtain ⟨q', hq', h⟩ := ih hq
        exact ⟨q', List.mem_cons_of_mem _ hq', h⟩

theorem dropRef_ok (h : LabelsFrom lo head) (id : ℕ) : LabelsFrom lo (dropRef id head) := by
  induction head generalizing lo with
  | nil => exact h
  | cons l head ih =>
    obtain ⟨⟨hlo, hused, hnamed, hne⟩, htail⟩ := LabelsFrom.cons_iff.mp h
    rw [dropRef]
    split_ifs with hid hlast
    · exact htail.mono (by omega)
    · refine LabelsFrom.cons_iff.mpr ⟨⟨hlo, ?_, hnamed, hne⟩, htail⟩
      dsimp only
      omega
    · refine LabelsFrom.cons_iff.mpr ⟨⟨hlo, hused, hnamed, fun q hq => ?_⟩, ih htail⟩
      obtain ⟨q', hq', -, hname⟩ := dropRef_mem hq
      rw [hname]
      exact hne q' hq'

/-- Dropping a reference takes one from that id and none from the others. -/
theorem refs_dropRef (h : LabelsFrom lo head) (id i : ℕ) :
    refs (dropRef id head) i = refs head i - if id = i ∧ 0 < refs head i then 1 else 0 := by
  induction head generalizing lo with
  | nil => simp [dropRef, refs]
  | cons l head ih =>
    obtain ⟨⟨-, hused, -, -⟩, htail⟩ := LabelsFrom.cons_iff.mp h
    by_cases hid : id = l.id
    · subst hid
      rw [dropRef, if_pos rfl]
      have hrest : refs head l.id = 0 :=
        refs_of_forall_ne fun q hq => by have := htail.lo q hq; omega
      by_cases hi : l.id = i
      · subst hi
        have href : refs (l :: head) l.id = l.ref := by
          rw [refs, if_pos rfl, hrest, add_zero]
        rw [href, if_pos (And.intro rfl hused)]
        split_ifs with hlast
        · rw [hrest]
          omega
        · rw [refs, if_pos rfl, hrest, add_zero]
      · have hno : ¬(l.id = i ∧ 0 < refs (l :: head) i) := fun hc => hi hc.1
        rw [if_neg hno, sub_zero, refs, if_neg hi, zero_add]
        split_ifs
        · rfl
        · rw [refs, if_neg hi, zero_add]
    · rw [dropRef, if_neg hid, refs, refs, ih htail]
      by_cases hi : id = i
      · subst hi
        rw [if_neg (Ne.symm hid), zero_add, zero_add]
      · have hno : ∀ n : ℤ, ¬(id = i ∧ 0 < n) := fun n hc => hi hc.1
        rw [if_neg (hno _), if_neg (hno _), sub_zero, sub_zero]

theorem unref_spec (h : LabelsOk head) (id : ℕ) : Dropped head id (unref head id) := by
  unfold unref
  split_ifs with hzero
  · subst hzero
    exact ⟨h, fun i hi => by simp [hi.symm], fun i _ => rfl⟩
  · have hok := dropRef_ok h id
    refine ⟨hok, fun i _ => refs_dropRef h id i, fun i hi => ?_⟩
    obtain ⟨p, hp, rfl⟩ := (refs_pos_iff hok).mp hi
    obtain ⟨q, hq, hid, hname⟩ := dropRef_mem hp
    rw [id2name_of_mem hok hp, hid, id2name_of_mem h hq, hname]

end Bgpd.Fib
