import Bgpd.Rde.AspathSpec

/-!
# What Edits of an AS Path Mean

A path stands for its hops: the ASes of a sequence one by one, and a set as one hop.
`aspath_prepend` puts hops in front, `aspath_override` replaces an AS, and `aspath_get` keeps the
number of hops and the origin AS with the path. Segments of confederations are a soft error only,
so that paths with them are edited and stored as well, and there the number of hops is wrong.

## Main results

- `denote_prependSegs`: hops in front of a path
- `pathCount_eq_hopCount_iff`: where the number of hops is right
- `editsMean_iff`: the edits of all paths that are accepted
-/

namespace Bgpd.Rde.AspathWalk

open Nlri As4

variable {s : Seg} {segs : List Seg} {path : List UInt8} {n quantum : ℕ}

/-! ## Paths and their hops -/

/-- The segments of a path. Every segment has a header, so the length of the path is enough fuel. -/
def segmentsLoop : ℕ → List UInt8 → Option (List Seg)
  | _, [] => some []
  | n + 1, segType :: segLen :: buf => do
    let (ases, buf) ← getAses ibufGetN32 segLen.toNat buf
    let segs ← segmentsLoop n buf
    return ⟨segType, ases⟩ :: segs
  | _, _ => none

def segments (path : List UInt8) : Option (List Seg) := segmentsLoop path.length path

/-- A segment of a confederation. -/
def Confed (s : Seg) : Prop := s.type = asConfedSequence ∨ s.type = asConfedSet

instance (s : Seg) : Decidable (Confed s) := by
  unfold Confed
  infer_instance

/-- A hop of a path: an AS of a sequence, a set of ASes, or a segment of a confederation. -/
inductive Hop where
  | as (as : UInt32)
  | set (ases : List UInt32)
  | confed (type : UInt8) (ases : List UInt32)
  deriving DecidableEq

/-- The hops of a segment. -/
def segHops (s : Seg) : List Hop :=
  if s.type = asSequence then s.ases.map .as
  else if s.type = asSet then [.set s.ases]
  else [.confed s.type s.ases]

/-- The hops of a path. -/
def denote (segs : List Seg) : List Hop := segs.flatMap segHops

/-- How a segment counts: a set is one hop, and a segment of a confederation none. -/
def segCount (s : Seg) : ℕ :=
  if s.type = asSet then 1 else if s.type = asSequence then s.ases.length else 0

/-- The number of hops. -/
def hopCount (segs : List Seg) : ℕ := (segs.map segCount).sum

/-- The origin AS: the last AS of the last segment if this is a sequence, the own AS if it is from a
    confederation or if there is none, and `AS_NONE` otherwise. -/
def origin (localAs : UInt32) (segs : List Seg) : UInt32 :=
  match segs.getLast? with
  | none => localAs
  | some s =>
    if s.type = asSequence then s.ases.getLast?.getD 0 else if Confed s then localAs else 0

/-- No segment of the path is from a confederation. -/
def NoConfed (path : List UInt8) : Prop := ∃ segs, segments path = some segs ∧ ∀ s ∈ segs, ¬Confed s

/-! ## The meaning of the edits -/

/-- `aspath_prepend`: hops in front, in segments that are not too long, with the length of what was
    written, and counted. -/
def Prepended (path : List UInt8) (segs : List Seg) (as : UInt32) (quantum : UInt8) : Prop :=
  ∃ out segs' cnt, aspathPrepend path as quantum.toNat = .ok (out, out.length) ∧
    segments out = some segs' ∧
    denote segs' = List.replicate quantum.toNat (.as as) ++ denote segs ∧
    (∀ s ∈ segs', s.ases.length ≤ 255) ∧
    aspathCount path = .ok cnt ∧ aspathCount out = .ok (cnt + quantum.toNat)

/-- `aspath_override`: one AS is another one, and all else is as it was. -/
def Overridden (path : List UInt8) (segs : List Seg) (neighborAs localAs : UInt32) : Prop :=
  ∃ out, aspathOverride path neighborAs localAs = .ok (out, out.length) ∧
    segments out = some (segs.map fun s =>
      ⟨s.type, s.ases.map fun as => if as = neighborAs then localAs else as⟩)

/-- `aspath_get`: the number of hops and the origin AS. -/
def Stored (path : List UInt8) (segs : List Seg) (localAs : UInt32) : Prop :=
  ∃ stored, aspathGet path localAs = .ok stored ∧ stored.data = path ∧
    stored.ascnt = hopCount segs ∧ stored.sourceAs = origin localAs segs

/-- The path has segments, and the edits mean for these what they should. -/
def EditsMean (path : List UInt8) (localAs as : UInt32) (quantum : UInt8)
    (neighborAs newAs : UInt32) : Prop :=
  ∃ segs, segments path = some segs ∧ Prepended path segs as quantum ∧
    Overridden path segs neighborAs newAs ∧ Stored path segs localAs

/-! ## Segments -/

theorem segmentsLoop_encode (hok : ∀ s ∈ segs, Valid s) (hfuel : segs.length ≤ n) :
    segmentsLoop n (encode ibufAddN32 segs) = some segs := by
  induction segs generalizing n with
  | nil => cases n <;> rfl
  | cons s rest ih =>
    obtain ⟨hs, hrest⟩ := List.forall_mem_cons.1 hok
    cases n with
    | zero => exact absurd hfuel (by simp)
    | succ n =>
      have hbehind := ih hrest (Nat.le_of_succ_le_succ hfuel)
      rw [encode_cons, segmentsLoop, hs.toNat_len, getAses_ibufAddN32]
      simp only [bind, Option.bind_some, hbehind, pure]

theorem segments_encode (hok : ∀ s ∈ segs, Valid s) :
    segments (encode ibufAddN32 segs) = some segs :=
  segmentsLoop_encode hok (length_le_length_encode segs _)

/-! ## Hops in front -/

theorem denote_cons (s : Seg) (segs : List Seg) :
    denote (s :: segs) = segHops s ++ denote segs := rfl

theorem denote_sequence (as : UInt32) (quantum : ℕ) (segs : List Seg) :
    denote (⟨asSequence, List.replicate quantum as⟩ :: segs) =
      List.replicate quantum (.as as) ++ denote segs := by
  rw [denote_cons, segHops, if_pos rfl, List.map_replicate]

theorem Valid.type_of_not_confed (h : Valid s) (hconfed : ¬Confed s) (hset : s.type ≠ asSet) :
    s.type = asSequence := by
  rcases h.type with htype | htype | htype | htype
  · exact absurd htype hset
  · exact htype
  · exact absurd (.inl htype) hconfed
  · exact absurd (.inr htype) hconfed

/-- The hops are put in front of a path, wherever in its segments they go. -/
theorem denote_prependSegs (hok : ∀ s ∈ segs, Valid s) (hconfed : ∀ s ∈ segs, ¬Confed s)
    (as : UInt32) (hq : quantum ≤ 255) :
    denote (prependSegs as quantum segs) = List.replicate quantum (.as as) ++ denote segs := by
  unfold prependSegs
  split_ifs with hzero
  · rw [hzero]
    rfl
  cases segs with
  | nil => exact denote_sequence as quantum []
  | cons s rest =>
    dsimp only
    by_cases hset : s.type = asSet
    -- an AS_SET takes no ASN in front: a new segment is made
    · rw [if_pos hset]
      exact denote_sequence as quantum (s :: rest)
    · rw [if_neg hset]
      have hs := hok s List.mem_cons_self
      have hle := hs.le
      have htype := hs.type_of_not_confed (hconfed s List.mem_cons_self) hset
      -- at most 255 ASNs fit in the first segment, the others go into one before it
      obtain ⟨overflow, hover⟩ : ∃ overflow, overflow = s.ases.length + quantum - 255 := ⟨_, rfl⟩
      rw [← hover]
      -- the first segment with the copies that fit
      have hmerged : denote ((if 0 < quantum - overflow then
            ⟨asSequence, List.replicate (quantum - overflow) as ++ s.ases⟩ else s) :: rest) =
          List.replicate (quantum - overflow) (.as as) ++ denote (s :: rest) := by
        split_ifs with hpos
        · rw [denote_cons, denote_cons, segHops, if_pos rfl, List.map_append, List.map_replicate,
            segHops, if_pos htype, List.append_assoc]
        · have hnone : quantum - overflow = 0 := Nat.eq_zero_of_not_pos hpos
          rw [hnone]
          rfl
      have hsplit : quantum = overflow + (quantum - overflow) := by omega
      split_ifs with hpos hmore hmore
      · rw [if_pos hmore] at hmerged
        rw [List.cons_append, List.nil_append, denote_sequence, hmerged, ← List.append_assoc,
          List.replicate_append_replicate, ← hsplit]
      · have hall : overflow = quantum := by omega
        rw [List.cons_append, List.nil_append, denote_sequence, hall]
      · rw [if_pos hmore] at hmerged
        have hnone : overflow = 0 := Nat.eq_zero_of_not_pos hpos
        rw [List.nil_append, hmerged, hnone, Nat.sub_zero]
      · omega

/-- The segments are not empty and not too long. -/
theorem prependSegs_valid (hok : ∀ s ∈ segs, Valid s) (as : UInt32) (hq : quantum ≤ 255) :
    ∀ s ∈ prependSegs as quantum segs, Valid s := by
  have hsequence : ∀ n, 0 < n → n ≤ 255 → Valid ⟨asSequence, List.replicate n as⟩ := by
    intro n hpos hle
    refine ⟨.inr (.inl rfl), ?_, ?_⟩
    · simpa using hpos
    · simpa using hle
  unfold prependSegs
  split_ifs with hzero
  · exact hok
  have hpos : 0 < quantum := Nat.pos_of_ne_zero hzero
  cases segs with
  | nil => exact List.forall_mem_cons.2 ⟨hsequence _ hpos hq, by simp⟩
  | cons s rest =>
    obtain ⟨hs, hrest⟩ := List.forall_mem_cons.1 hok
    have hle := hs.le
    dsimp only
    split_ifs with hset hover hmore hmore
    · exact List.forall_mem_cons.2 ⟨hsequence _ hpos hq, hok⟩
    · refine List.forall_mem_cons.2
        ⟨hsequence _ hover (by omega), List.forall_mem_cons.2 ⟨?_, hrest⟩⟩
      refine ⟨.inr (.inl rfl), ?_, ?_⟩
      · simp only [List.length_append, List.length_replicate]
        omega
      · simp only [List.length_append, List.length_replicate]
        omega
    · exact List.forall_mem_cons.2 ⟨hsequence _ hover (by omega), hok⟩
    · refine List.forall_mem_cons.2 ⟨⟨.inr (.inl rfl), ?_, ?_⟩, hrest⟩
      · simp only [List.length_append, List.length_replicate]
        omega
      · simp only [List.length_append, List.length_replicate]
        omega
    · exact hok

/-- At most one header is new. -/
theorem length_prependSegs (hok : ∀ s ∈ segs, Valid s) (as : UInt32) (hq : quantum ≤ 255) :
    (encode ibufAddN32 (prependSegs as quantum segs)).length ≤
      2 + 4 * quantum + (encode ibufAddN32 segs).length := by
  unfold prependSegs
  split_ifs with hzero
  · omega
  cases segs with
  | nil =>
    rw [length_encode_cons, List.length_replicate]
  | cons s rest =>
    have hle := (hok s List.mem_cons_self).le
    dsimp only
    split_ifs with hset hover hmore hmore <;>
      simp only [List.cons_append, List.nil_append, length_encode_cons, List.length_append,
        List.length_replicate] <;>
      omega

theorem weight_sequence (ases : List UInt32) : Seg.weight ⟨asSequence, ases⟩ = ases.length :=
  if_neg (show ¬asSequence = asSet by decide)

/-- What is put in front is counted. -/
theorem pathCount_prependSegs (hok : ∀ s ∈ segs, Valid s) (as : UInt32) (hq : quantum ≤ 255) :
    pathCount (prependSegs as quantum segs) = pathCount segs + quantum := by
  unfold prependSegs
  split_ifs with hzero
  · rw [hzero, Nat.add_zero]
  cases segs with
  | nil =>
    rw [pathCount_cons, weight_sequence, List.length_replicate, Nat.add_comm]
  | cons s rest =>
    have hle := (hok s List.mem_cons_self).le
    dsimp only
    by_cases hset : s.type = asSet
    · rw [if_pos hset, pathCount_cons, weight_sequence, List.length_replicate, Nat.add_comm]
    · have hweight : s.weight = s.ases.length := if_neg hset
      rw [if_neg hset]
      split_ifs with hover hmore hmore <;>
        simp only [List.cons_append, List.nil_append, pathCount_cons, weight_sequence,
          List.length_append, List.length_replicate, hweight] <;>
        omega

/-! ## Counts -/

theorem hopCount_cons (s : Seg) (segs : List Seg) :
    hopCount (s :: segs) = segCount s + hopCount segs := by
  simp [hopCount]

theorem segCount_le (s : Seg) : segCount s ≤ s.weight := by
  unfold segCount Seg.weight
  split_ifs
  · exact le_rfl
  · exact le_rfl
  · exact Nat.zero_le _

theorem hopCount_le (segs : List Seg) : hopCount segs ≤ pathCount segs := by
  induction segs with
  | nil => exact le_rfl
  | cons s rest ih =>
    rw [hopCount_cons, pathCount_cons]
    exact Nat.add_le_add (segCount_le s) ih

theorem Valid.segCount_eq_iff (h : Valid s) : segCount s = s.weight ↔ ¬Confed s := by
  have hpos := h.pos
  constructor
  · intro heq hconfed
    have hset : s.type ≠ asSet := by
      rcases hconfed with h | h <;> rw [h] <;> decide
    have hsequence : s.type ≠ asSequence := by
      rcases hconfed with h | h <;> rw [h] <;> decide
    rw [segCount, Seg.weight, if_neg hset, if_neg hset, if_neg hsequence] at heq
    omega
  · intro hconfed
    by_cases hset : s.type = asSet
    · rw [segCount, Seg.weight, if_pos hset, if_pos hset]
    · rw [segCount, Seg.weight, if_neg hset, if_neg hset,
        if_pos (h.type_of_not_confed hconfed hset)]

/-- The number of hops is right if there is no segment of a confederation. -/
theorem pathCount_eq_hopCount_iff (hok : ∀ s ∈ segs, Valid s) :
    pathCount segs = hopCount segs ↔ ∀ s ∈ segs, ¬Confed s := by
  induction segs with
  | nil =>
    constructor
    · exact fun _ => by simp
    · exact fun _ => rfl
  | cons s rest ih =>
    obtain ⟨hs, hrest⟩ := List.forall_mem_cons.1 hok
    have hle := segCount_le s
    have hrestle := hopCount_le rest
    have hsum : pathCount (s :: rest) = hopCount (s :: rest) ↔
        segCount s = s.weight ∧ pathCount rest = hopCount rest := by
      rw [pathCount_cons, hopCount_cons]
      omega
    rw [hsum, hs.segCount_eq_iff, ih hrest, List.forall_mem_cons]

theorem pathCount_le (hok : ∀ s ∈ segs, Valid s) : pathCount segs ≤ asTotal segs := by
  induction segs with
  | nil => exact le_rfl
  | cons s rest ih =>
    obtain ⟨hs, hrest⟩ := List.forall_mem_cons.1 hok
    have hpos := hs.pos
    have hweight : s.weight ≤ s.ases.length := by
      unfold Seg.weight
      split_ifs
      · exact hpos
      · exact le_rfl
    rw [pathCount_cons, asTotal_cons]
    exact Nat.add_le_add hweight (ih hrest)

theorem storedOrigin_eq (hconfed : ∀ s ∈ segs, ¬Confed s) (localAs : UInt32) :
    storedOrigin localAs segs = origin localAs segs := by
  unfold storedOrigin origin
  cases hlast : segs.getLast? with
  | none => rfl
  | some s =>
    have hs := hconfed s (List.mem_of_getLast? hlast)
    dsimp only
    rw [if_neg hs]

/-! ## All edits -/

theorem overridden_encode (hok : ∀ s ∈ segs, Valid s) (neighborAs localAs : UInt32) :
    Overridden (encode ibufAddN32 segs) segs neighborAs localAs := by
  refine ⟨encode ibufAddN32 (segs.map (overrideSeg neighborAs localAs)), ?_, ?_⟩
  · rw [aspathOverride_encode hok, length_encode_override]
  · apply segments_encode
    intro s' hs'
    obtain ⟨s, hs, rfl⟩ := List.mem_map.1 hs'
    have hvalid := hok s hs
    refine ⟨hvalid.type, ?_, ?_⟩
    · simpa [overrideSeg] using hvalid.pos
    · simpa [overrideSeg] using hvalid.le

theorem prepended_encode (hok : ∀ s ∈ segs, Valid s) (htotal : asTotal segs ≤ maxAspathCount)
    (hconfed : ∀ s ∈ segs, ¬Confed s) (as : UInt32) (quantum : UInt8) :
    Prepended (encode ibufAddN32 segs) segs as quantum := by
  have hq : quantum.toNat ≤ 255 := Nat.le_of_lt_succ quantum.toNat_lt
  have hvalid := prependSegs_valid hok as hq
  have hlen := length_encode_le hok
  have hcount := pathCount_le hok
  have hcount' := pathCount_prependSegs hok as hq
  unfold maxAspathCount at htotal
  have hlen' : (encode ibufAddN32 (prependSegs as quantum.toNat segs)).length < 2 ^ 16 := by
    have hsize := length_prependSegs hok as hq
    omega
  refine ⟨_, _, pathCount segs, ?_, segments_encode hvalid, denote_prependSegs hok hconfed as hq,
    fun s hs => (hvalid s hs).le, ?_, ?_⟩
  · rw [aspathPrepend_encode hok (by omega) as hq, Nat.mod_eq_of_lt hlen']
  · rw [aspathCount_encode hok, Nat.mod_eq_of_lt (by omega)]
  · rw [aspathCount_encode hvalid, hcount', Nat.mod_eq_of_lt (by omega)]

theorem stored_encode_iff (hok : ∀ s ∈ segs, Valid s) (htotal : asTotal segs ≤ maxAspathCount)
    (localAs : UInt32) :
    Stored (encode ibufAddN32 segs) segs localAs ↔ ∀ s ∈ segs, ¬Confed s := by
  have hcount := pathCount_le hok
  unfold maxAspathCount at htotal
  have hget : aspathGet (encode ibufAddN32 segs) localAs =
      .ok ⟨encode ibufAddN32 segs, (encode ibufAddN32 segs).length, pathCount segs,
        storedOrigin localAs segs⟩ := by
    unfold aspathGet
    rw [aspathCount_encode hok, aspathExtractOrigin_encode hok, Nat.mod_eq_of_lt (by omega)]
    rfl
  constructor
  · rintro ⟨stored, hstored, -, hascnt, -⟩
    rw [hget] at hstored
    cases hstored
    exact (pathCount_eq_hopCount_iff hok).1 hascnt
  · intro hconfed
    exact ⟨_, hget, rfl, (pathCount_eq_hopCount_iff hok).2 hconfed, storedOrigin_eq hconfed localAs⟩

/-- The edits of a path that is accepted mean what they should if no segment of the path is from a
    confederation. -/
theorem editsMean_iff (h : Accepted path) (localAs as : UInt32) (quantum : UInt8)
    (neighborAs newAs : UInt32) :
    EditsMean path localAs as quantum neighborAs newAs ↔ NoConfed path := by
  obtain ⟨segs, rfl, hok, htotal⟩ := h.exists_segs
  have hsegs := segments_encode hok
  constructor
  · rintro ⟨segs', hsegs', -, -, hstored⟩
    rw [hsegs] at hsegs'
    cases hsegs'
    exact ⟨segs, hsegs, (stored_encode_iff hok htotal localAs).1 hstored⟩
  · rintro ⟨segs', hsegs', hconfed⟩
    rw [hsegs] at hsegs'
    cases hsegs'
    exact ⟨segs, hsegs, prepended_encode hok htotal hconfed as quantum,
      overridden_encode hok neighborAs newAs, (stored_encode_iff hok htotal localAs).2 hconfed⟩

/-- Two ASes in front of a sequence. -/
theorem editsMean_iff_sequence :
    EditsMean [2, 1, 0, 0, 0, 7] 1 9 2 7 1 ↔ NoConfed [2, 1, 0, 0, 0, 7] :=
  editsMean_iff (.four true (.inl (by decide))) 1 9 2 7 1

/-- A segment of a confederation is counted, and the path has no origin AS. -/
theorem confed_edits_differ : Accepted [3, 1, 0, 0, 0, 7] ∧
    aspathGet [3, 1, 0, 0, 0, 7] 1 = .ok ⟨[3, 1, 0, 0, 0, 7], 6, 1, 0⟩ ∧
    ∀ as quantum neighborAs newAs,
      ¬EditsMean [3, 1, 0, 0, 0, 7] 1 as quantum neighborAs newAs := by
  have hget : aspathGet [3, 1, 0, 0, 0, 7] 1 = .ok ⟨[3, 1, 0, 0, 0, 7], 6, 1, 0⟩ := by
    have haccepted : Accepted [3, 1, 0, 0, 0, 7] := .four true (.inr (by decide))
    have hok : ∀ s ∈ [(⟨3, [7]⟩ : Seg)], Valid s := by
      simp only [List.mem_singleton, forall_eq]
      exact ⟨.inr (.inr (.inl rfl)), by decide, by decide⟩
    have hcount := aspathCount_encode hok
    have horigin := aspathExtractOrigin_encode hok 1
    have hpath : encode ibufAddN32 [(⟨3, [7]⟩ : Seg)] = [3, 1, 0, 0, 0, 7] := by decide
    rw [hpath] at hcount horigin
    unfold aspathGet
    rw [hcount, horigin]
    rfl
  refine ⟨.four true (.inr (by decide)), hget, ?_⟩
  rintro as quantum neighborAs newAs ⟨segs, hsegs, -, -, stored, hstored, -, hascnt, -⟩
  rw [hget] at hstored
  cases hstored
  have hdecode : segments [3, 1, 0, 0, 0, 7] = some [⟨3, [7]⟩] := by decide
  rw [hdecode] at hsegs
  cases hsegs
  exact absurd hascnt (by decide)

end Bgpd.Rde.AspathWalk
