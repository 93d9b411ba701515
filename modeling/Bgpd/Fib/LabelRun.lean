import Bgpd.Fib.Label
import Mathlib.Data.Multiset.AddSub
import Mathlib.Data.Multiset.Count

/-!
# Numbers of Names in Use

Whoever looks up a name holds its number until it gives the reference back. In all runs the number
of a holder stands for the name that it looked up, different names have different numbers, and a
number is free again when its last holder is gone.

The list of the route labels and the list of the tables of pf are used in this way. A lookup that
finds no memory changes nothing.

## Main definitions

- `LabelRun`: the lists of all runs, with the numbers that are held

## Main results

- `LabelRun.ok`: the invariant of runs
- `numbers_of_names`: what the functions say about the numbers that are held
-/

namespace Bgpd.Fib

variable {lo : ℕ} {head : List N2idLabel} {held : Multiset (ℕ × String)} {name : String} {id : ℕ}

/-- `_ref` -/
def ref (head : List N2idLabel) (id : ℕ) : ℕ × List N2idLabel :=
  if id = 0 then (0, head)
  else
    match head.find? fun label => label.id = id with
    | some _ => (id, addRef (fun label => label.id = id) head)
    | none => (0, head)

/-! ## The smallest free number -/

/-- All numbers below the new one are in use. -/
theorem newLabel_least (name : String) (n : ℕ) (head : List N2idLabel) :
    ∀ k, n ≤ k → k < (newLabel name n head).1 → ∃ p ∈ head, p.id = k := by
  induction head generalizing n with
  | nil =>
    intro k hn hk
    exact absurd hn (Nat.not_le.2 hk)
  | cons p head ih =>
    intro k hn hk
    rw [newLabel] at hk
    split_ifs at hk with hid
    · exact absurd hn (Nat.not_le.2 hk)
    · rcases Nat.eq_or_lt_of_le hn with rfl | hlt
      · exact ⟨p, List.mem_cons_self, not_not.1 hid⟩
      · obtain ⟨q, hq, hqid⟩ := ih (n + 1) k hlt hk
        exact ⟨q, List.mem_cons_of_mem _ hq, hqid⟩

/-- The new number is not in use. -/
theorem newLabel_free (h : LabelsFrom lo head) (name : String) :
    ∀ p ∈ head, p.id ≠ (newLabel name lo head).1 := by
  induction head generalizing lo with
  | nil =>
    intro p hp
    cases hp
  | cons p head ih =>
    obtain ⟨⟨hlo, -⟩, htail⟩ := LabelsFrom.cons_iff.mp h
    intro q hq
    rw [newLabel]
    split_ifs with hid
    · have hge := h.lo q hq
      rcases List.mem_cons.1 hq with rfl | hq
      · exact hid
      · have hgt := htail.lo q hq
        dsimp only
        omega
    · obtain rfl := not_not.1 hid
      rcases List.mem_cons.1 hq with rfl | hq
      · have hgt := newLabel_lo name (q.id + 1) head
        dsimp only
        omega
      · exact ih htail q hq

/-! ## Taking another reference -/

/-- One more reference to a number that is in use. -/
theorem ref_spec (h : LabelsOk head) (hpos : 0 < refs head id) :
    Looked head (id2name head id) id (ref head id).2 ∧ (ref head id).1 = id := by
  obtain ⟨p, hp, rfl⟩ := (refs_pos_iff h).1 hpos
  cases hfind : head.find? fun label => label.id = p.id with
  | none => simpa using List.find?_eq_none.1 hfind p hp
  | some label =>
    have hid : label.id = p.id := by simpa using List.find?_some hfind
    have hok := addRef_ok h fun label => label.id = p.id
    have hnames : ∀ q ∈ head,
        id2name (addRef (fun label => label.id = p.id) head) q.id = id2name head q.id := by
      intro q hq
      obtain ⟨q', hq', hqid, hqname⟩ := addRef_name_mem (p := fun label => label.id = p.id) hq
      rw [← hqid, id2name_of_mem hok hq', hqname, hqid, id2name_of_mem h hq]
    rw [ref, if_neg (h.id_ne_zero hp), hfind]
    refine ⟨⟨hok, fun i _ => ?_, fun _ => hnames p hp, fun i hi => ?_⟩, rfl⟩
    · have hrefs := refs_addRef hfind i
      rw [hid] at hrefs
      exact hrefs
    · obtain ⟨q, hq, rfl⟩ := (refs_pos_iff h).1 hi
      exact hnames q hq

/-! ## Runs -/

/-- The lists of all runs, with the numbers that are held and the names they were looked up for. -/
inductive LabelRun : List N2idLabel → Multiset (ℕ × String) → Prop
  | init : LabelRun [] 0
  | name2id {head : List N2idLabel} {held : Multiset (ℕ × String)} (name : String)
      (hrun : LabelRun head held) :
      LabelRun (name2id head name).2
        (if (name2id head name).1 = 0 then held else ((name2id head name).1, name) ::ₘ held)
  | ref {head : List N2idLabel} {held : Multiset (ℕ × String)} (id : ℕ) (name : String)
      (hrun : LabelRun head held) (hheld : (id, name) ∈ held) :
      LabelRun (ref head id).2 ((id, name) ::ₘ held)
  | unref {head : List N2idLabel} {held : Multiset (ℕ × String)} (id : ℕ) (name : String)
      (hrun : LabelRun head held) (hheld : (id, name) ∈ held) :
      LabelRun (unref head id) (held.erase (id, name))

/-- The number of holders of a number. -/
def holders (held : Multiset (ℕ × String)) (id : ℕ) : ℕ := held.countP fun x => x.1 = id

/-- Every reference has a holder, and the names are those that were looked up. -/
structure HeldOk (head : List N2idLabel) (held : Multiset (ℕ × String)) : Prop where
  ok : LabelsOk head
  max : ∀ p ∈ head, p.id ≤ idvalMax
  refs : ∀ i, i ≠ 0 → refs head i = holders held i
  pos : ∀ x ∈ held, x.1 ≠ 0
  names : ∀ x ∈ held, id2name head x.1 = x.2

theorem holders_cons (x : ℕ × String) (held : Multiset (ℕ × String)) (i : ℕ) :
    holders (x ::ₘ held) i = holders held i + if x.1 = i then 1 else 0 :=
  Multiset.countP_cons _ x held

theorem holders_pos_iff : 0 < holders held id ↔ ∃ x ∈ held, x.1 = id := Multiset.countP_pos

/-- A number that is held has references. -/
theorem HeldOk.refs_pos (h : HeldOk head held) {x : ℕ × String} (hx : x ∈ held) :
    0 < Fib.refs head x.1 := by
  rw [h.refs x.1 (h.pos x hx), Int.natCast_pos]
  exact holders_pos_iff.2 ⟨x, hx, rfl⟩

/-- The entries of the list are the numbers that are held. -/
theorem HeldOk.mem_iff (h : HeldOk head held) (id : ℕ) :
    (∃ p ∈ head, p.id = id) ↔ ∃ x ∈ held, x.1 = id := by
  constructor
  · rintro ⟨p, hp, rfl⟩
    have hpos := (refs_pos_iff h.ok).2 ⟨p, hp, rfl⟩
    rw [h.refs p.id (h.ok.id_ne_zero hp), Int.natCast_pos] at hpos
    exact holders_pos_iff.1 hpos
  · rintro ⟨x, hx, rfl⟩
    exact (refs_pos_iff h.ok).1 (h.refs_pos hx)

/-- One more reference with a holder. -/
theorem HeldOk.look {head' : List N2idLabel} (h : HeldOk head held)
    (hl : Looked head name id head') (hmax : ∀ p ∈ head', p.id ≤ idvalMax) (hid : id ≠ 0) :
    HeldOk head' ((id, name) ::ₘ held) := by
  refine ⟨hl.ok, hmax, fun i hi => ?_, fun x hx => ?_, fun x hx => ?_⟩
  · rw [hl.refs i hi, h.refs i hi, holders_cons]
    push_cast
    rfl
  · rcases Multiset.mem_cons.1 hx with rfl | hx
    · exact hid
    · exact h.pos x hx
  · rcases Multiset.mem_cons.1 hx with rfl | hx
    · exact hl.name hid
    · rw [hl.names x.1 (h.refs_pos hx)]
      exact h.names x hx

theorem addRef_max {p : N2idLabel → Bool} (hmax : ∀ q ∈ head, q.id ≤ idvalMax) :
    ∀ q ∈ addRef p head, q.id ≤ idvalMax := by
  intro q hq
  obtain ⟨q', hq', hid, -⟩ := addRef_mem hq
  rw [hid]
  exact hmax q' hq'

theorem name2id_max (hmax : ∀ p ∈ head, p.id ≤ idvalMax) (name : String) :
    ∀ p ∈ (name2id head name).2, p.id ≤ idvalMax := by
  unfold name2id
  by_cases hname : name = ""
  · rw [if_pos hname]
    exact hmax
  · rw [if_neg hname]
    cases head.find? fun label => name = label.name with
    | some label => exact addRef_max hmax
    | none =>
      dsimp only
      split_ifs with hfull
      · exact hmax
      · intro p hp
        rcases List.mem_cons.1 ((newLabel_perm name 1 head).mem_iff.1 hp) with rfl | hp
        · exact Nat.le_of_not_lt hfull
        · exact hmax p hp

theorem ref_max (hmax : ∀ p ∈ head, p.id ≤ idvalMax) (id : ℕ) :
    ∀ p ∈ (ref head id).2, p.id ≤ idvalMax := by
  unfold ref
  split_ifs
  · exact hmax
  · cases head.find? fun label => label.id = id with
    | some label => exact addRef_max hmax
    | none => exact hmax

/-- A lookup that fails changes nothing. -/
theorem name2id_zero (h : LabelsOk head) (hzero : (name2id head name).1 = 0) :
    (name2id head name).2 = head := by
  unfold name2id at hzero ⊢
  by_cases hname : name = ""
  · rw [if_pos hname]
  · rw [if_neg hname] at hzero ⊢
    cases hfind : head.find? fun label => name = label.name with
    | some label =>
      rw [hfind] at hzero
      exact absurd hzero (h.id_ne_zero (List.mem_of_find?_eq_some hfind))
    | none =>
      rw [hfind] at hzero
      dsimp only at hzero ⊢
      have hlo := newLabel_lo name 1 head
      split_ifs at hzero ⊢
      · rfl
      · omega

/-- A reference of a holder is given back. -/
theorem HeldOk.drop (h : HeldOk head held) (hheld : (id, name) ∈ held) :
    HeldOk (unref head id) (held.erase (id, name)) := by
  obtain ⟨rest, rfl⟩ := Multiset.exists_cons_of_mem hheld
  have hd := unref_spec h.ok id
  have hrefs : ∀ i, i ≠ 0 → Fib.refs (unref head id) i = holders rest i := by
    intro i hi
    have hpos := h.refs_pos hheld
    rw [hd.refs i hi]
    by_cases hid : id = i
    · subst hid
      rw [if_pos ⟨rfl, hpos⟩, h.refs id hi, holders_cons, if_pos rfl]
      push_cast
      ring
    · rw [if_neg fun hc => hid hc.1, h.refs i hi, holders_cons, if_neg hid, sub_zero, add_zero]
  rw [Multiset.erase_cons_head]
  refine ⟨hd.ok, fun p hp => ?_, hrefs, fun x hx => ?_, fun x hx => ?_⟩
  · unfold unref at hp
    split_ifs at hp
    · exact h.max p hp
    · obtain ⟨q, hq, hpq, -⟩ := dropRef_mem hp
      rw [hpq]
      exact h.max q hq
  · exact h.pos x (Multiset.mem_cons_of_mem hx)
  · have hpos : 0 < Fib.refs (unref head id) x.1 := by
      rw [hrefs x.1 (h.pos x (Multiset.mem_cons_of_mem hx)), Int.natCast_pos]
      exact holders_pos_iff.2 ⟨x, hx, rfl⟩
    rw [hd.names x.1 hpos]
    exact h.names x (Multiset.mem_cons_of_mem hx)

/-- The run lemma. -/
theorem LabelRun.ok (hr : LabelRun head held) : HeldOk head held := by
  induction hr with
  | init =>
    refine ⟨.nil 1, fun p hp => ?_, fun i _ => rfl, fun x hx => ?_, fun x hx => ?_⟩
    · cases hp
    · exact absurd hx (Multiset.notMem_zero x)
    · exact absurd hx (Multiset.notMem_zero x)
  | @name2id head held name hrun ih =>
    split_ifs with hzero
    · rw [name2id_zero ih.ok hzero]
      exact ih
    · exact ih.look (name2id_spec ih.ok name) (name2id_max ih.max name) hzero
  | @ref head held id name hrun hheld ih =>
    obtain ⟨hl, -⟩ := ref_spec ih.ok (ih.refs_pos hheld)
    have hname : id2name head id = name := ih.names _ hheld
    rw [hname] at hl
    exact ih.look hl (ref_max ih.max id) (ih.pos _ hheld)
  | unref id name hrun hheld ih => exact ih.drop hheld

/-! ## What the numbers stand for -/

/-- What the functions say about the numbers that are held. -/
structure NumbersOk (head : List N2idLabel) (held : Multiset (ℕ × String)) : Prop where
  /-- A number that is held stands for the name it was looked up for. -/
  names : ∀ x ∈ held, 0 < x.1 ∧ x.1 ≤ idvalMax ∧ id2name head x.1 = x.2
  /-- One number for every name, and one name for every number. -/
  inj : ∀ x ∈ held, ∀ y ∈ held, x.1 = y.1 ↔ x.2 = y.2
  /-- A number that nobody holds stands for nothing. -/
  free : ∀ id, (∀ x ∈ held, x.1 ≠ id) → id2name head id = ""
  /-- The name of a holder has the same number for the next one, and so has the number. -/
  again : ∀ x ∈ held, (name2id head x.2).1 = x.1 ∧ (ref head x.1).1 = x.1
  /-- Another name has the smallest free number, -/
  least : ∀ name, (∀ x ∈ held, x.2 ≠ name) → (name2id head name).1 ≠ 0 →
    (∀ x ∈ held, x.1 ≠ (name2id head name).1) ∧
      ∀ k, 0 < k → k < (name2id head name).1 → ∃ x ∈ held, x.1 = k
  /-- and none only if all numbers are held. -/
  full : ∀ name, name ≠ "" → (name2id head name).1 = 0 →
    ∀ k, 0 < k → k ≤ idvalMax → ∃ x ∈ held, x.1 = k

/-- The number of a name that is in the list. -/
theorem name2id_of_mem (h : LabelsOk head) {p : N2idLabel} (hp : p ∈ head) :
    (name2id head p.name).1 = p.id := by
  unfold name2id
  rw [if_neg (h.named p hp)]
  cases hfind : head.find? fun label => p.name = label.name with
  | none => simpa using List.find?_eq_none.1 hfind p hp
  | some label =>
    have hname : p.name = label.name := by simpa using List.find?_some hfind
    exact congrArg N2idLabel.id (h.eq_of_name (List.mem_of_find?_eq_some hfind) hp hname.symm)

/-- The number of a name that is not in the list. -/
theorem name2id_of_forall_ne (hname : name ≠ "") (hnew : ∀ p ∈ head, p.name ≠ name) :
    (name2id head name).1 =
      if (newLabel name 1 head).1 > idvalMax then 0 else (newLabel name 1 head).1 := by
  have hfind : (head.find? fun label => name = label.name) = none := by
    rw [List.find?_eq_none]
    intro p hp
    simpa using (hnew p hp).symm
  unfold name2id
  rw [if_neg hname, hfind]
  dsimp only
  split_ifs <;> rfl

/-- In every run of lookups and references that are given back by those who hold them, every number
    stands for the name it was looked up for as long as it is held, and a name that is new gets the
    smallest number that nobody holds. -/
theorem numbers_of_names (head : List N2idLabel) (held : Multiset (ℕ × String))
    (hr : LabelRun head held) : NumbersOk head held := by
  have h := hr.ok
  -- the names of the list are those of the holders
  have hmem : ∀ p ∈ head, ∃ x ∈ held, x.1 = p.id ∧ x.2 = p.name := by
    intro p hp
    obtain ⟨x, hx, hid⟩ := (h.mem_iff p.id).1 ⟨p, hp, rfl⟩
    refine ⟨x, hx, hid, ?_⟩
    rw [← h.names x hx, hid, id2name_of_mem h.ok hp]
  have hentry : ∀ x ∈ held, ∃ p ∈ head, p.id = x.1 ∧ p.name = x.2 := by
    intro x hx
    obtain ⟨p, hp, hid⟩ := (h.mem_iff x.1).2 ⟨x, hx, rfl⟩
    refine ⟨p, hp, hid, ?_⟩
    rw [← id2name_of_mem h.ok hp, hid, h.names x hx]
  refine ⟨fun x hx => ?_, fun x hx y hy => ?_, fun id hfree => ?_, fun x hx => ?_,
    fun name hnew hne => ?_, fun name hname hzero => ?_⟩
  -- a number is not 0, within bounds, and stands for its name
  · obtain ⟨p, hp, hid, _⟩ := hentry x hx
    refine ⟨Nat.pos_of_ne_zero (h.pos x hx), ?_, h.names x hx⟩
    rw [← hid]
    exact h.max p hp
  -- one number for one name
  · constructor
    · intro hid
      rw [← h.names x hx, ← h.names y hy, hid]
    · intro hname
      obtain ⟨p, hp, hpid, hpname⟩ := hentry x hx
      obtain ⟨q, hq, hqid, hqname⟩ := hentry y hy
      rw [← hpid, ← hqid, h.ok.eq_of_name hp hq (by rw [hpname, hqname, hname])]
  -- a number nobody holds stands for nothing
  · refine id2name_of_forall_ne fun p hp hid => ?_
    obtain ⟨x, hx, hxid, _⟩ := hmem p hp
    exact hfree x hx (hxid.trans hid)
  -- asking again gives the same number, and one more reference
  · obtain ⟨p, hp, hid, hname⟩ := hentry x hx
    refine ⟨?_, (ref_spec h.ok (h.refs_pos hx)).2⟩
    rw [← hname, ← hid]
    exact name2id_of_mem h.ok hp
  -- a new name gets the least free number
  · have hname : name ≠ "" := by
      rintro rfl
      exact hne rfl
    have heq := name2id_of_forall_ne hname fun p hp hpname => by
      obtain ⟨x, hx, _, hxname⟩ := hmem p hp
      exact hnew x hx (hxname.trans hpname)
    have hid : (name2id head name).1 = (newLabel name 1 head).1 := by
      rw [heq] at hne ⊢
      split_ifs at hne ⊢
      · exact absurd rfl hne
      · rfl
    rw [hid]
    refine ⟨fun x hx hxid => ?_, fun k hpos hk => ?_⟩
    · obtain ⟨p, hp, hpid, _⟩ := hentry x hx
      exact newLabel_free h.ok name p hp (hpid.trans hxid)
    · exact (h.mem_iff k).1 (newLabel_least name 1 head k hpos hk)
  -- 0 is the answer only when every number is held
  · intro k hpos hk
    have hnew : ∀ p ∈ head, p.name ≠ name := by
      rintro p hp rfl
      rw [name2id_of_mem h.ok hp] at hzero
      exact h.ok.id_ne_zero hp hzero
    have heq := name2id_of_forall_ne hname hnew
    rw [hzero] at heq
    have hlo := newLabel_lo name 1 head
    have hfull : idvalMax < (newLabel name 1 head).1 := by
      by_contra hle
      rw [if_neg hle] at heq
      omega
    exact (h.mem_iff k).1 (newLabel_least name 1 head k hpos (by omega))

/-- Two names are looked up, the first is given back, and its number goes to a third one. -/
theorem numbers_of_names_reused : ∃ head, LabelRun head {(1, "c"), (2, "b")} ∧
    NumbersOk head {(1, "c"), (2, "b")} := by
  have hinit := LabelRun.init
  have ha := hinit.name2id "a"
  have hb := ha.name2id "b"
  have hdrop := hb.unref 1 "a" (by decide)
  have hc := hdrop.name2id "c"
  exact ⟨_, hc, numbers_of_names _ _ hc⟩

end Bgpd.Fib
