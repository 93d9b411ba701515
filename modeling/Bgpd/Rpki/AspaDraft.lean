import Bgpd.Lib.Ramp
import Bgpd.Rpki.Aspa

/-!
# The ASPA Verification Draft

What a path is worth by the ASPA verification draft, and that the single walk of
`aspa_check_aspath` computes it. The draft counts the ASes from the origin, `AS(1)`, to the
neighbor, `AS(N)`, and scans the path twice for each of four ramps. The code counts from the
neighbor to the origin and keeps the ends of all ramps at once.

## Main results

- `upRamp_eq`, `downRamp_eq`: the indices of the draft are the ends of ramps
- `Describes.step`: what one round of the walk keeps true
- `aspaValidation_eq_draft`: the walk and the draft agree
-/

namespace Bgpd.Rpki

open Bgpd.Rde Bgpd.Lib

/-! ## The draft -/

/-- The hop authorization function of the draft. -/
abbrev Authorized := ℕ → ℕ → CpState

/-- `AS(i)` of a path that is listed from the origin on. -/
def asAt (path : List ℕ) (i : ℕ) : ℕ := path.getD (i - 1) 0

/-- The smallest `I < N` such that the hop from `AS(I)` up to `AS(I+1)` is bad, or `N`. -/
def upRamp (bad : CpState → Bool) (auth : Authorized) (path : List ℕ) : ℕ :=
  ((List.range' 1 (path.length - 1)).find? fun i =>
    bad (auth (asAt path i) (asAt path (i + 1)))).getD path.length

/-- `N - J + 1` for the largest `J > 1` such that the hop from `AS(J)` down to `AS(J-1)` is
    bad, or `N`. -/
def downRamp (bad : CpState → Bool) (auth : Authorized) (path : List ℕ) : ℕ :=
  (((List.range' 2 (path.length - 1)).reverse.find? fun j =>
    bad (auth (asAt path j) (asAt path (j - 1)))).map fun j => path.length - j + 1).getD path.length

/-- A ramp ends at the latest with a hop that is "Not Provider+". -/
def endsMax (v : CpState) : Bool := v = .notProvider

/-- A ramp certainly goes on as long as the hops are "Provider+". -/
def endsMin (v : CpState) : Bool := v ≠ .provider

def maxUpRamp : Authorized → List ℕ → ℕ := upRamp endsMax
def minUpRamp : Authorized → List ℕ → ℕ := upRamp endsMin
def maxDownRamp : Authorized → List ℕ → ℕ := downRamp endsMax
def minDownRamp : Authorized → List ℕ → ℕ := downRamp endsMin

/-- What the hops from the origin up to the neighbor are. -/
def upHops (auth : Authorized) (path : List ℕ) : List CpState :=
  (List.range' 1 (path.length - 1)).map fun i => auth (asAt path i) (asAt path (i + 1))

/-- A path that may only go up: from a customer, a peer or a route server. -/
def draftOnlyup (auth : Authorized) (path : List ℕ) : AspaVstate :=
  if .notProvider ∈ upHops auth path then .invalid
  else if ∀ v ∈ upHops auth path, v = .provider then .valid
  else .unknown

/-- A path that may go up and then down: from a provider. -/
def draftDownup (auth : Authorized) (path : List ℕ) : AspaVstate :=
  if maxUpRamp auth path + maxDownRamp auth path < path.length then .invalid
  else if minUpRamp auth path + minDownRamp auth path ≥ path.length then .valid
  else .unknown

/-- All ASes of a path, from the neighbor to the origin. -/
def asList (a : Aspath) : List ℕ := a.flatMap (·.ases)

/-- The path of the draft: repeats collapsed, listed from the origin on. -/
def draftPath (a : Aspath) : List ℕ := ((asList a).destutter (· ≠ ·)).reverse

/-- The outcome of both procedures of the draft. -/
def draftValidation (auth : Authorized) (a : Aspath) : RdeAspaState :=
  if a = [] ∨ ∃ seg ∈ a, seg.type ≠ .asSequence then ⟨.invalid, .invalid⟩
  else ⟨draftOnlyup auth (draftPath a), draftDownup auth (draftPath a)⟩

/-! ## Ramps of the draft as ramps of lists -/

section Ramps

variable (bad : CpState → Bool) (auth : Authorized)

/-- The hop is not bad. -/
def Good (a b : ℕ) : Prop := bad (auth a b) = false

instance : DecidableRel (Good bad auth) := fun a b => inferInstanceAs
    (Decidable (bad (auth a b) = false))

theorem upRamp_eq (path : List ℕ) : upRamp bad auth path = ramp (Good bad auth) path := by
  unfold upRamp
  have hle := ramp_le_length (Good bad auth) path
  obtain hlt | heq := lt_or_eq_of_le hle
  · -- the ramp ends at a bad hop, and all hops before are good
    have hpos : 0 < ramp (Good bad auth) path :=
      ramp_pos _ (fun h => by simp [h] at hlt)
    rw [List.find?_range'_eq_some.mpr, Option.getD_some]
    refine ⟨?_, ?_, ?_⟩
    · simpa [asAt, Good] using ramp_break (Good bad auth) path hlt
    · rw [List.mem_range'_1]
      omega
    · intro j hj hlt
      obtain ⟨i, rfl⟩ : ∃ i, j = i + 1 := ⟨j - 1, by omega⟩
      simpa [asAt, Good] using ramp_rel (Good bad auth) path (i := i) hlt
  · rw [List.find?_range'_eq_none.mpr, Option.getD_none, heq]
    intro j hj hlt
    obtain ⟨i, rfl⟩ : ∃ i, j = i + 1 := ⟨j - 1, by omega⟩
    simpa [asAt, Good] using ramp_rel (Good bad auth) path (i := i) (by omega)

theorem asAt_reverse (path : List ℕ) {i : ℕ} (h : i < path.length) :
    asAt path (path.length - i) = path.reverse.getD i 0 := by
  unfold asAt
  rw [List.getD_eq_getElem?_getD, List.getD_eq_getElem?_getD, List.getElem?_reverse h]
  congr 2
  omega

/-- The down-ramp is the up-ramp of the path that is read from the neighbor on. -/
theorem downRamp_eq (path : List ℕ) :
    downRamp bad auth path = ramp (Good bad auth) path.reverse := by
  rw [← upRamp_eq]
  unfold upRamp downRamp
  rw [List.reverse_range', List.find?_map, Option.map_map, List.length_reverse]
  have hrange : List.range' 1 (path.length - 1) = (List.range (path.length - 1)).map (· + 1) := by
    simp only [Nat.add_comm _ 1, List.range_eq_range', List.map_add_range']
  rw [hrange, List.find?_map]
  -- the same hops in the same order
  have hfind : (List.range (path.length - 1)).find?
        ((fun j => bad (auth (asAt path j) (asAt path (j - 1)))) ∘
          fun i => 2 + (path.length - 1) - 1 - i) =
      (List.range (path.length - 1)).find?
        ((fun i => bad (auth (asAt path.reverse i) (asAt path.reverse (i + 1)))) ∘ (· + 1)) := by
    apply List.find?_congr
    intro i hi
    rw [List.mem_range] at hi
    have h₁ : 2 + (path.length - 1) - 1 - i = path.length - i := by omega
    have h₂ : path.length - i - 1 = path.length - (i + 1) := by omega
    simp only [Function.comp_apply, h₁, h₂]
    rw [asAt_reverse path (by omega), asAt_reverse path (by omega)]
    simp [asAt]
  rw [hfind]
  cases hf : (List.range (path.length - 1)).find?
      ((fun i => bad (auth (asAt path.reverse i) (asAt path.reverse (i + 1)))) ∘ (· + 1)) with
  | none => rfl
  | some i =>
    have hi := List.mem_range.mp (List.mem_of_find?_eq_some hf)
    simp only [Option.map_some, Option.getD_some, Function.comp_apply]
    omega

/-- No hop up is bad iff the up-ramp is the whole path. -/
theorem forall_upHops (path : List ℕ) :
    (∀ v ∈ upHops auth path, bad v = false) ↔ ramp (Good bad auth) path = path.length := by
  constructor
  · intro h
    by_contra hne
    have hlt := lt_of_le_of_ne (ramp_le_length _ _) hne
    have hpos : 0 < ramp (Good bad auth) path :=
      ramp_pos _ (fun h => by simp [h] at hlt)
    apply ramp_break (Good bad auth) path hlt
    apply h
    refine List.mem_map.mpr ⟨ramp (Good bad auth) path, ?_, by simp [asAt]⟩
    rw [List.mem_range'_1]
    omega
  · intro heq v hv
    obtain ⟨j, hj, rfl⟩ := List.mem_map.mp hv
    rw [List.mem_range'_1] at hj
    obtain ⟨i, rfl⟩ : ∃ i, j = i + 1 := ⟨j - 1, by omega⟩
    simpa [asAt, Good] using ramp_rel (Good bad auth) path (i := i) (by omega)

end Ramps

/-! ## The walk -/

/-- A ramp without unknown hops. -/
def endsUnknown (v : CpState) : Bool := v = .unknown

/-- The state of the walk after the ASes `c`, listed from the neighbor on and without
    repeats: the indices are the ends of ramps from both sides. -/
structure Describes (auth : Authorized) (c : List ℕ) (s : AspaState) : Prop where
  nhops : s.nhops = c.length
  ndownP : s.ndownP = ramp (Good endsMin auth) c
  ndownNp : s.ndownNp = if ramp (Good endsMax auth) c = c.length then 0
    else ramp (Good endsMax auth) c + 1
  nupP : s.nupP = if ramp (Good endsMin auth) c.reverse = 1 then 0
    else c.length + 1 - ramp (Good endsMin auth) c.reverse
  nupNp : s.nupNp = c.length - ramp (Good endsMax auth) c.reverse
  nupU : s.nupU = c.length - ramp (Good endsUnknown auth) c.reverse

section Walk

variable {ra : RdeAspa} {s : AspaState}

theorem good_min {auth : Authorized} {a b : ℕ} : Good endsMin auth a b ↔ auth a b = .provider := by
  simp [Good, endsMin]

theorem good_max {auth : Authorized} {a b : ℕ} :
    Good endsMax auth a b ↔ auth a b ≠ .notProvider := by
  simp [Good, endsMax]

theorem good_unknown {auth : Authorized} {a b : ℕ} :
    Good endsUnknown auth a b ↔ auth a b ≠ .unknown := by
  simp [Good, endsUnknown]

/-! What the two switches do to each index. -/

theorem down_frame (s : AspaState) (v : CpState) :
    (s.down v).nhops = s.nhops ∧ (s.down v).nupP = s.nupP ∧ (s.down v).nupU = s.nupU ∧
      (s.down v).nupNp = s.nupNp := by
  cases v <;> simp only [AspaState.down] <;> split <;> exact ⟨rfl, rfl, rfl, rfl⟩

theorem down_ndownP (s : AspaState) (v : CpState) :
    (s.down v).ndownP = if s.ndownP + 1 = s.nhops ∧ v = .provider then s.nhops else s.ndownP := by
  cases v <;> simp only [AspaState.down] <;> split <;> simp_all

theorem down_ndownNp (s : AspaState) (v : CpState) :
    (s.down v).ndownNp = if s.ndownNp = 0 ∧ v = .notProvider then s.nhops else s.ndownNp := by
  cases v <;> simp only [AspaState.down] <;> split <;> simp_all

theorem up_frame (s : AspaState) (v : CpState) :
    (s.up v).nhops = s.nhops ∧ (s.up v).ndownP = s.ndownP ∧ (s.up v).ndownNp = s.ndownNp := by
  cases v with
  | unknown => exact ⟨rfl, rfl, rfl⟩
  | notProvider => exact ⟨rfl, rfl, rfl⟩
  | provider => simp only [AspaState.up]; split <;> exact ⟨rfl, rfl, rfl⟩

theorem up_nupP (s : AspaState) (v : CpState) :
    (s.up v).nupP =
      if v = .provider then (if s.nupP = 0 then s.nhops - 1 else s.nupP) else 0 := by
  cases v with
  | unknown => rfl
  | notProvider => rfl
  | provider => simp only [AspaState.up]; split <;> simp_all

theorem up_nupNp (s : AspaState) (v : CpState) :
    (s.up v).nupNp = if v = .notProvider then s.nhops - 1 else s.nupNp := by
  cases v with
  | unknown => rfl
  | notProvider => rfl
  | provider => simp only [AspaState.up]; split <;> rfl

theorem up_nupU (s : AspaState) (v : CpState) :
    (s.up v).nupU = if v = .unknown then s.nhops - 1 else s.nupU := by
  cases v with
  | unknown => rfl
  | notProvider => rfl
  | provider => simp only [AspaState.up]; split <;> rfl

variable {auth : Authorized} {l : List ℕ} {p : ℕ}

/-- The down-ramps grow at their end. -/
theorem Describes.step_down (h : Describes auth (l ++ [p]) s) (a : ℕ) :
    (AspaState.down { s with nhops := s.nhops + 1 } (auth p a)).ndownP =
        ramp (Good endsMin auth) (l ++ [p] ++ [a]) ∧
      (AspaState.down { s with nhops := s.nhops + 1 } (auth p a)).ndownNp =
        if ramp (Good endsMax auth) (l ++ [p] ++ [a]) = l.length + 2 then 0
        else ramp (Good endsMax auth) (l ++ [p] ++ [a]) + 1 := by
  have hn : s.nhops = l.length + 1 := by simpa using h.nhops
  have hmax : ramp (Good endsMax auth) (l ++ [p]) ≤ l.length + 1 := by
    simpa using ramp_le_length (Good endsMax auth) (l ++ [p])
  have hnp : s.ndownNp = if ramp (Good endsMax auth) (l ++ [p]) = l.length + 1 then 0
      else ramp (Good endsMax auth) (l ++ [p]) + 1 := by simpa using h.ndownNp
  constructor
  · rw [down_ndownP, ramp_concat, ← h.ndownP]
    simp only [good_min, hn, Nat.add_right_cancel_iff]
  · rw [down_ndownNp, ramp_concat, hnp]
    simp only [good_max, hn]
    by_cases hfull : ramp (Good endsMax auth) (l ++ [p]) = l.length + 1
    · by_cases hv : auth p a = .notProvider <;> simp [hfull, hv]
    · simp only [hfull, false_and, if_false, Nat.add_one_ne_zero]
      rw [if_neg (by omega)]

/-- The up-ramps grow at their start. -/
theorem Describes.step_up (h : Describes auth (l ++ [p]) s) (a : ℕ) {s' : AspaState}
    (hs' : s'.nhops = s.nhops + 1 ∧ s'.nupP = s.nupP ∧ s'.nupU = s.nupU ∧ s'.nupNp = s.nupNp) :
    ((s'.up (auth a p)).nupP =
        if ramp (Good endsMin auth) (a :: p :: l.reverse) = 1 then 0
        else l.length + 3 - ramp (Good endsMin auth) (a :: p :: l.reverse)) ∧
      (s'.up (auth a p)).nupNp = l.length + 2 - ramp (Good endsMax auth) (a :: p :: l.reverse) ∧
      (s'.up (auth a p)).nupU =
        l.length + 2 - ramp (Good endsUnknown auth) (a :: p :: l.reverse) := by
  obtain ⟨hn', hp', hu', hnp'⟩ := hs'
  have hrev : (l ++ [p]).reverse = p :: l.reverse := by simp
  have hlen : (l ++ [p]).length = l.length + 1 := by simp
  obtain ⟨hn, -, -, hP, hNp, hU⟩ := h
  rw [hrev, hlen] at hP hNp hU
  rw [hlen] at hn
  have hpos := ramp_pos (Good endsMin auth) (List.cons_ne_nil p l.reverse)
  have hle := ramp_le_length (Good endsMin auth) (p :: l.reverse)
  rw [List.length_cons, List.length_reverse] at hle
  refine ⟨?_, ?_, ?_⟩
  · rw [up_nupP, ramp_cons_cons, hn', hp', hn, hP]
    by_cases hv : auth a p = .provider
    · rw [if_pos hv, if_pos (good_min.mpr hv)]
      -- the walk has seen no such hop before, or one that is not at the end of the ramp
      by_cases hone : ramp (Good endsMin auth) (p :: l.reverse) = 1
      · simp [hone]
      · rw [if_neg hone, if_neg (by omega), if_neg (by omega)]
        omega
    · rw [if_neg hv, if_neg (good_min.not.mpr hv), if_pos rfl]
  · rw [up_nupNp, ramp_cons_cons, hn', hnp', hn, hNp]
    by_cases hv : auth a p = .notProvider
    · rw [if_pos hv, if_neg (by simp [good_max, hv])]
    · rw [if_neg hv, if_pos (good_max.mpr hv)]
      omega
  · rw [up_nupU, ramp_cons_cons, hn', hu', hn, hU]
    by_cases hv : auth a p = .unknown
    · rw [if_pos hv, if_neg (by simp [good_unknown, hv])]
    · rw [if_neg hv, if_pos (good_unknown.mpr hv)]
      omega

/-- The walk moves on from the AS `p` to the AS `a`. -/
theorem Describes.step (h : Describes auth (l ++ [p]) s) (a : ℕ) :
    Describes auth (l ++ [p] ++ [a])
      ((AspaState.down { s with nhops := s.nhops + 1 } (auth p a)).up (auth a p)) := by
  have hlen : (l ++ [p] ++ [a]).length = l.length + 2 := by simp
  have hrev : (l ++ [p] ++ [a]).reverse = a :: p :: l.reverse := by simp
  have hdown := down_frame { s with nhops := s.nhops + 1 } (auth p a)
  obtain ⟨hup_n, hup_p, hup_np⟩ :=
    up_frame (AspaState.down { s with nhops := s.nhops + 1 } (auth p a)) (auth a p)
  obtain ⟨hP, hNp⟩ := h.step_down a
  obtain ⟨huP, huNp, huU⟩ := h.step_up a hdown
  constructor
  · rw [hup_n, hdown.1, hlen]
    simp [h.nhops]
  · rw [hup_p, hP]
  · rw [hup_np, hNp, hlen]
  · rw [huP, hrev, hlen]
  · rw [huNp, hrev, hlen]
  · rw [huU, hrev, hlen]

/-- A path on which AS 0 is not followed by another AS. The walk takes AS 0 for "no AS seen
    yet". -/
def ZeroLast (l : List ℕ) : Prop := l.IsChain fun a b => a = 0 → b = 0

instance (l : List ℕ) : Decidable (ZeroLast l) :=
  inferInstanceAs (Decidable (l.IsChain fun a b => a = 0 → b = 0))

/-- The walk over all segments, if they are sequences. -/
theorem aspaCheckSegments_eq (a : Aspath) (h : ∀ seg ∈ a, seg.type = .asSequence)
    (st : ℕ × AspaState) :
    aspaCheckSegments ra a st = some ((asList a).foldl (aspaCheckAs ra) st) := by
  induction a generalizing st with
  | nil => rfl
  | cons seg a ih =>
    rw [aspaCheckSegments, if_pos (h seg (List.mem_cons_self ..)),
      ih (fun x hx => h x (List.mem_cons_of_mem _ hx))]
    simp [asList]

theorem aspaCheckSegments_none (a : Aspath) (h : ∃ seg ∈ a, seg.type ≠ .asSequence)
    (st : ℕ × AspaState) : aspaCheckSegments ra a st = none := by
  induction a generalizing st with
  | nil => simp at h
  | cons seg a ih =>
    rw [aspaCheckSegments]
    split
    · next hseg =>
      apply ih
      obtain ⟨x, hx, hne⟩ := h
      rcases List.mem_cons.mp hx with rfl | hx
      · exact absurd hseg hne
      · exact ⟨x, hx, hne⟩
    · rfl

/-- The walk over a path that does not start with AS 0. -/
theorem walk_describes (ra : RdeAspa) (l : List ℕ) (hl : l ≠ []) (hhead : l.head? ≠ some 0)
    (hz : ZeroLast l) :
    ∃ s, l.foldl (aspaCheckAs ra) (0, { ndownP := 1 }) = (l.getLast hl, s) ∧
      Describes (aspaCpLookup ra) (l.destutter (· ≠ ·)) s := by
  induction l using List.reverseRecOn with
  | nil => exact absurd rfl hl
  | append_singleton l a ih =>
    rw [List.foldl_append, List.foldl_cons, List.foldl_nil, List.getLast_concat]
    obtain rfl | hne := eq_or_ne l []
    · -- the neighbor
      have ha : a ≠ 0 := by simpa using hhead
      refine ⟨{ ndownP := 1, nhops := 1 }, by simp [aspaCheckAs, ha], ?_⟩
      constructor <;> simp
    · obtain ⟨s, hs, hd⟩ := ih hne (by simpa [List.head?_append_of_ne_nil _ hne] using hhead)
        (List.isChain_append.mp hz).1
      rw [hs]
      by_cases ha : a = l.getLast hne
      · -- skip prepends
        refine ⟨s, by simp [aspaCheckAs, ha], ?_⟩
        rw [destutter_concat, if_pos]
        · exact hd
        · rw [getLast?_destutter, List.getLast?_eq_getLast_of_ne_nil hne, ha]
      · have hlast : l.getLast hne ≠ 0 := by
          intro h0
          apply ha
          rw [h0]
          exact (List.isChain_append.mp hz).2.2 _ (List.getLast?_eq_getLast_of_ne_nil hne) a rfl h0
        have hlast' : (l.destutter (· ≠ ·)).getLast? = some (l.getLast hne) := by
          rw [getLast?_destutter, List.getLast?_eq_getLast_of_ne_nil hne]
        obtain ⟨c, hc⟩ := List.getLast?_eq_some_iff.mp hlast'
        rw [hc] at hd
        refine ⟨_, by simp [aspaCheckAs, ha, hlast]; rfl, ?_⟩
        rw [destutter_concat, hlast', if_neg (by simpa using Ne.symm ha), hc]
        exact hd.step a

/-- The last line of `aspa_check_aspath`. -/
def AspaState.close (s : AspaState) : AspaState :=
  if s.nupP = 0 then { s with nupP := s.nhops } else s

theorem close_frame (s : AspaState) :
    s.close.nhops = s.nhops ∧ s.close.nupNp = s.nupNp ∧ s.close.nupU = s.nupU ∧
      s.close.ndownP = s.ndownP ∧ s.close.ndownNp = s.ndownNp := by
  unfold AspaState.close
  split <;> exact ⟨rfl, rfl, rfl, rfl, rfl⟩

/-- The up-ramp of providers starts with the origin. -/
theorem Describes.close_nupP {c : List ℕ} (hd : Describes auth c s) (hne : c ≠ []) :
    s.close.nupP = c.length + 1 - ramp (Good endsMin auth) c.reverse := by
  have hpos := ramp_pos (Good endsMin auth) (List.reverse_ne_nil_iff.mpr hne)
  have hle := ramp_le_length (Good endsMin auth) c.reverse
  rw [List.length_reverse] at hle
  have hp := hd.nupP
  unfold AspaState.close
  by_cases hone : ramp (Good endsMin auth) c.reverse = 1
  · rw [if_pos hone] at hp
    rw [if_pos hp, hone]
    exact hd.nhops
  · rw [if_neg hone] at hp
    rw [if_neg (by omega), hp]

/-- On a whole path the code's up ramp is the one of the draft. -/
theorem finalize_onlyup {c : List ℕ} (hd : Describes auth c s) :
    (aspaCheckFinalize s.close).onlyup = draftOnlyup auth c.reverse := by
  obtain ⟨-, hnp, hu, -, -⟩ := close_frame s
  have hmax := ramp_le_length (Good endsMax auth) c.reverse
  have hunk := ramp_le_length (Good endsUnknown auth) c.reverse
  rw [List.length_reverse] at hmax hunk
  -- the counters say if there is such a hop
  have hnp0 : s.nupNp = 0 ↔ ∀ v ∈ upHops auth c.reverse, v ≠ .notProvider := by
    rw [hd.nupNp, Nat.sub_eq_zero_iff_le]
    have h := forall_upHops endsMax auth c.reverse
    rw [List.length_reverse] at h
    simp only [endsMax, decide_eq_false_iff_not] at h
    rw [h]
    exact ⟨fun h => le_antisymm hmax h, fun h => h.ge⟩
  have hu0 : s.nupU = 0 ↔ ∀ v ∈ upHops auth c.reverse, v ≠ .unknown := by
    rw [hd.nupU, Nat.sub_eq_zero_iff_le]
    have h := forall_upHops endsUnknown auth c.reverse
    rw [List.length_reverse] at h
    simp only [endsUnknown, decide_eq_false_iff_not] at h
    rw [h]
    exact ⟨fun h => le_antisymm hunk h, fun h => h.ge⟩
  unfold aspaCheckFinalize draftOnlyup
  rw [hnp, hu]
  by_cases hmem : .notProvider ∈ upHops auth c.reverse
  -- one hop denied makes the whole path invalid
  · rw [if_pos hmem, if_pos]
    exact fun h0 => hnp0.mp h0 _ hmem rfl
  · have hno : ∀ v ∈ upHops auth c.reverse, v ≠ .notProvider := fun v hv h => hmem (h ▸ hv)
    rw [if_neg hmem, if_neg (not_not.mpr (hnp0.mpr hno))]
    by_cases hall : ∀ v ∈ upHops auth c.reverse, v = .provider
    · rw [if_pos hall, if_neg (not_not.mpr (hu0.mpr fun v hv => by simp [hall v hv]))]
    · rw [if_neg hall, if_pos]
      intro h0
      apply hall
      intro v hv
      have h₁ := hno v hv
      have h₂ := hu0.mp h0 v hv
      cases v with
      | provider => rfl
      | unknown => exact absurd rfl h₂
      | notProvider => exact absurd rfl h₁

/-- On a whole path the code's up and down ramps are those of the draft. -/
theorem finalize_downup {c : List ℕ} (hne : c ≠ []) (hd : Describes auth c s) :
    (aspaCheckFinalize s.close).downup = draftDownup auth c.reverse := by
  obtain ⟨hnhops, hnp, -, hdp, hdnp⟩ := close_frame s
  -- the four ramps and how they compare
  have hrne : c.reverse ≠ [] := by simpa using hne
  have hsub : ∀ a b, Good endsMin auth a b → Good endsMax auth a b := by
    intro a b h
    rw [good_max, good_min.mp h]
    exact nofun
  have h₁ := ramp_pos (Good endsMin auth) hne
  have h₂ := ramp_pos (Good endsMin auth) hrne
  have h₃ := ramp_mono (Good endsMin auth) hsub c
  have h₄ := ramp_mono (Good endsMin auth) hsub c.reverse
  have h₅ := ramp_le_length (Good endsMax auth) c
  have h₆ := ramp_le_length (Good endsMax auth) c.reverse
  rw [List.length_reverse] at h₆
  unfold draftDownup maxUpRamp minUpRamp maxDownRamp minDownRamp
  dsimp only [aspaCheckFinalize]
  rw [upRamp_eq, upRamp_eq, downRamp_eq, downRamp_eq, List.reverse_reverse, List.length_reverse,
    hnhops, hnp, hdp, hdnp, hd.close_nupP hne, hd.nhops, hd.ndownP, hd.ndownNp, hd.nupNp]
  generalize ramp (Good endsMin auth) c = minDown at *
  generalize ramp (Good endsMin auth) c.reverse = minUp at *
  generalize ramp (Good endsMax auth) c = maxDown at *
  generalize ramp (Good endsMax auth) c.reverse = maxUp at *
  by_cases hinv : maxUp + maxDown < c.length
  · -- both ramps end before they meet
    rw [if_pos hinv, if_neg (by omega), if_neg (by omega), if_pos]
    split <;> omega
  · rw [if_neg hinv]
    by_cases hval : minUp + minDown ≥ c.length
    · rw [if_pos hval]
      by_cases htwo : c.length ≤ 2
      · rw [if_pos htwo]
      · rw [if_neg htwo, if_pos (by omega)]
    · rw [if_neg hval, if_neg (by omega), if_neg (by omega), if_neg]
      split <;> omega

end Walk

/-! ## The code follows the draft -/

theorem aspaCheckAspath_eq (ra : RdeAspa) (a : Aspath) :
    aspaCheckAspath ra a =
      (aspaCheckSegments ra a (0, { ndownP := 1 })).map fun st => st.2.close := by
  unfold aspaCheckAspath
  cases aspaCheckSegments ra a (0, { ndownP := 1 }) <;> rfl

/-- A path of AS 0 only, or of empty segments. -/
theorem foldl_zeros (ra : RdeAspa) (st : AspaState) (l : List ℕ) (h : ∀ x ∈ l, x = 0) :
    l.foldl (aspaCheckAs ra) (0, st) = (0, st) := by
  induction l with
  | nil => rfl
  | cons x l ih =>
    obtain rfl := h x (List.mem_cons_self ..)
    exact ih fun y hy => h y (List.mem_cons_of_mem _ hy)

theorem ZeroLast.all_zero {l : List ℕ} (hz : ZeroLast l) (h : l.head?.getD 0 = 0) :
    ∀ x ∈ l, x = 0 := by
  induction l with
  | nil => simp
  | cons x l ih =>
    obtain rfl : x = 0 := by simpa using h
    intro y hy
    rcases List.mem_cons.mp hy with rfl | hy
    · rfl
    · cases l with
      | nil => simp at hy
      | cons z l =>
        have hz' := List.isChain_cons_cons.mp hz
        exact ih hz'.2 (by simpa using hz'.1 rfl) y hy

theorem destutter_zeros (l : List ℕ) (h : ∀ x ∈ l, x = 0) :
    l.destutter (· ≠ ·) = [] ∨ l.destutter (· ≠ ·) = [0] := by
  induction l using List.reverseRecOn with
  | nil => exact Or.inl rfl
  | append_singleton l a ih =>
    obtain rfl := h a (by simp)
    right
    rw [destutter_concat]
    obtain h₀ | h₀ := ih fun x hx => h x (List.mem_append_left _ hx)
    · rw [h₀]
      rfl
    · rw [h₀]
      rfl

/-- For every table and every path of AS sequences, `aspa_validation` gives the outcomes of
    the draft, provided that AS 0 is not followed by another AS. -/
theorem aspaValidation_eq_draft (ra : RdeAspa) (a : Aspath) (hz : ZeroLast (asList a)) :
    aspaValidation (some ra) a = draftValidation (aspaCpLookup ra) a := by
  unfold aspaValidation draftValidation
  dsimp only
  by_cases hnil : a = []
  · rw [if_pos hnil, if_pos (Or.inl hnil)]
  rw [if_neg hnil, aspaCheckAspath_eq]
  by_cases hset : ∃ seg ∈ a, seg.type ≠ .asSequence
  · rw [if_pos (Or.inr hset), aspaCheckSegments_none a hset]
    rfl
  rw [if_neg (not_or.mpr ⟨hnil, hset⟩),
    aspaCheckSegments_eq a fun seg hseg => by_contra fun h => hset ⟨seg, hseg, h⟩]
  unfold draftPath
  by_cases hhead : (asList a).head?.getD 0 = 0
  · -- nothing but AS 0, which the walk does not count
    have hall := hz.all_zero hhead
    rw [foldl_zeros ra _ _ hall]
    obtain h₀ | h₀ := destutter_zeros _ hall <;> rw [h₀] <;> rfl
  · have hne : asList a ≠ [] := by
      intro h
      simp [h] at hhead
    obtain ⟨s, hs, hd⟩ := walk_describes ra (asList a) hne
      (fun h => by simp [h] at hhead) hz
    have hne' : (asList a).destutter (· ≠ ·) ≠ [] := (List.destutter_eq_nil _).not.mpr hne
    rw [hs]
    show aspaCheckFinalize s.close = _
    rw [← finalize_onlyup hd, ← finalize_downup hne' hd]


/-- AS 5 attests AS 7 as its provider, and the path is `7 6 5`. -/
theorem aspaValidation_eq_draft_sample :
    ∃ ra, aspaFill 1 4 [(5, [7])] = .ok (some ra) ∧ ZeroLast (asList [⟨.asSequence, [7, 6, 5]⟩]) ∧
      aspaValidation (some ra) [⟨.asSequence, [7, 6, 5]⟩] = ⟨.invalid, .unknown⟩ ∧
      aspaValidation (some ra) [⟨.asSequence, [7, 6, 5]⟩] =
        draftValidation (aspaCpLookup ra) [⟨.asSequence, [7, 6, 5]⟩] :=
  ⟨_, rfl, by decide, by decide, aspaValidation_eq_draft _ _ (by decide)⟩

/-- The hop from AS 5 to AS 0 is not looked up: the path `0 5` is valid although AS 5 has
    attested another provider. -/
theorem aspaValidation_zero_ne_draft :
    ∃ ra, aspaFill 1 4 [(5, [7])] = .ok (some ra) ∧
      aspaValidation (some ra) [⟨.asSequence, [0, 5]⟩] = ⟨.valid, .valid⟩ ∧
      draftValidation (aspaCpLookup ra) [⟨.asSequence, [0, 5]⟩] = ⟨.invalid, .valid⟩ :=
  ⟨_, rfl, by decide, by decide⟩

end Bgpd.Rpki
