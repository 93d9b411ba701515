import Bgpd.Rde.As4Path
import Bgpd.Rde.NlriSpec

/-!
# Merging AS4_PATH

The merge of `AS_PATH` and `AS4_PATH` reads the numbers of both paths from `AS_PATH`. The result is
shorter than the path whenever a number is merged, so a path with a four-byte number never comes
back from an OLD speaker. Paths without one do, as there is no `AS4_PATH` then.

## Main results

- `exists_segs_of_verify`: an accepted path is a list of segments
- `length_aspathDomerge_lt`: the merge loses bytes
- `receive_relay_iff`: which paths survive an OLD speaker
- `aspathMerge_as4`: the relayed path, merges that keep what they should, and those that lose bytes
-/

namespace Bgpd.Rde.As4

open Nlri

variable {buf rest inb inb' in4 out : List UInt8} {ases : List UInt32} {segs : List Seg} {n cnt : ℕ}

/-! ## AS numbers -/

theorem ibufGetN16_addN16 {as : UInt32} (h : as ≤ ushrtMax) (rest : List UInt8) :
    ibufGetN16 (addN16 as ++ rest) = some (as, rest) := by
  have hle : as.toNat ≤ 65535 := UInt32.le_iff_toNat_le.1 h
  simp only [addN16, List.cons_append, List.nil_append, ibufGetN16, Option.some.injEq,
    Prod.mk.injEq,
    and_true]
  apply UInt32.toNat_inj.1
  simp only [UInt8.toNat_ofNat', UInt32.toNat_ofNat']
  omega

theorem eq_append_of_ibufGetN32 {as : UInt32} (h : ibufGetN32 buf = some (as, rest)) :
    buf = ibufAddN32 as ++ rest := by
  rcases buf with - | ⟨a, - | ⟨b, - | ⟨c, - | ⟨d, buf⟩⟩⟩⟩
  · exact absurd h (by simp [ibufGetN32])
  · exact absurd h (by simp [ibufGetN32])
  · exact absurd h (by simp [ibufGetN32])
  · exact absurd h (by simp [ibufGetN32])
  · simp only [ibufGetN32, Option.some.injEq, Prod.mk.injEq] at h
    obtain ⟨rfl, rfl⟩ := h
    have ha := a.toNat_lt
    have hb := b.toNat_lt
    have hc := c.toNat_lt
    have hd := d.toNat_lt
    simp only [ibufAddN32, List.cons_append, List.nil_append, List.cons.injEq, and_true,
      UInt32.toNat_ofNat']
    refine ⟨?_, ?_, ?_, ?_⟩
    all_goals
      apply UInt8.toNat_inj.1
      simp only [UInt8.toNat_ofNat']
      omega

@[simp] theorem length_ibufAddN32 (as : UInt32) : (ibufAddN32 as).length = 4 := rfl

theorem length_flatMap_ibufAddN32 (ases : List UInt32) :
    (ases.flatMap ibufAddN32).length = 4 * ases.length := by
  induction ases with
  | nil => rfl
  | cons as ases ih =>
    rw [List.flatMap_cons, List.length_append, ih, length_ibufAddN32, List.length_cons]
    omega

/-- Numbers are read as they were written. -/
theorem getAses_flatMap {get : List UInt8 → Option (UInt32 × List UInt8)}
    {add : UInt32 → List UInt8}
    (hget : ∀ as ∈ ases, ∀ rest, get (add as ++ rest) = some (as, rest)) (rest : List UInt8) :
    getAses get ases.length (ases.flatMap add ++ rest) = some (ases, rest) := by
  induction ases with
  | nil => rfl
  | cons as ases ih =>
    have hhead := hget as List.mem_cons_self
    have htail := ih fun as' h => hget as' (List.mem_cons_of_mem _ h)
    simp [getAses, List.append_assoc, hhead, htail]

theorem getAses_ibufAddN32 (ases : List UInt32) (rest : List UInt8) :
    getAses ibufGetN32 ases.length (ases.flatMap ibufAddN32 ++ rest) = some (ases, rest) :=
  getAses_flatMap (fun as _ => ibufGetN32_ibufAddN32 as) rest

theorem eq_append_of_getAses (h : getAses ibufGetN32 n buf = some (ases, rest)) :
    buf = ases.flatMap ibufAddN32 ++ rest ∧ ases.length = n := by
  induction n generalizing buf ases with
  | zero =>
    cases h
    exact ⟨rfl, rfl⟩
  | succ n ih =>
    simp only [getAses, bind, Option.bind_eq_some_iff, Prod.exists] at h
    obtain ⟨as, buf', has, ases', buf'', hases, h⟩ := h
    cases h
    obtain ⟨hbuf, hlen⟩ := ih hases
    rw [eq_append_of_ibufGetN32 has, hbuf]
    exact ⟨by simp, by simp [hlen]⟩

/-! ## Segments -/

/-- What `aspath_verify` accepts of a segment. -/
structure Seg.Ok (s : Seg) : Prop where
  type : s.type = asSet ∨ s.type = asSequence
  pos : 0 < s.ases.length
  le : s.ases.length ≤ 255

instance (s : Seg) : Decidable s.Ok :=
  decidable_of_iff ((s.type = asSet ∨ s.type = asSequence) ∧ 0 < s.ases.length ∧
    s.ases.length ≤ 255) ⟨fun h => ⟨h.1, h.2.1, h.2.2⟩, fun h => ⟨h.type, h.pos, h.le⟩⟩

theorem Seg.Ok.toNat_len {s : Seg} (h : s.Ok) : (UInt8.ofNat s.ases.length).toNat = s.ases.length :=
  toNat_ofNat_of_le h.le

@[simp] theorem encode_nil (add : UInt32 → List UInt8) : encode add [] = [] := rfl

theorem encode_cons (add : UInt32 → List UInt8) (s : Seg) (segs : List Seg) :
    encode add (s :: segs) =
      s.type :: UInt8.ofNat s.ases.length :: (s.ases.flatMap add ++ encode add segs) := rfl

theorem length_encode_cons (s : Seg) (segs : List Seg) :
    (encode ibufAddN32 (s :: segs)).length =
      2 + 4 * s.ases.length + (encode ibufAddN32 segs).length := by
  rw [encode_cons, List.length_cons, List.length_cons, List.length_append,
    length_flatMap_ibufAddN32]
  omega

theorem soften_eq_none {c : Prop} [Decidable c] {error : Option AsErr} :
    soften c error = none ↔ ¬c ∧ error = none := by
  unfold soften
  split_ifs with hc
  · simp [hc]
  · simp [hc]

/-- An error stays. -/
theorem verifyLoop_ne_none {as4byte permitSet : Bool} {error : Option AsErr} (herr : error ≠ none) :
    verifyLoop as4byte permitSet n buf error cnt ≠ none := by
  induction n generalizing buf error cnt with
  | zero =>
    cases buf with
    | nil =>
      rw [verifyLoop]
      split_ifs
      · simp
      · exact herr
    | cons b buf => simp [verifyLoop]
  | succ n ih =>
    rcases buf with - | ⟨t, - | ⟨l, buf⟩⟩
    · rw [verifyLoop]
      split_ifs
      · simp
      · exact herr
    · simp [verifyLoop]
    · simp only [verifyLoop]
      generalize (if as4byte = true then ibufGetN32 else ibufGetN16) = get
      -- an empty segment and an unknown type are errors that end the loop
      by_cases hl : l = 0
      · rw [if_pos hl]
        simp
      rw [if_neg hl]
      by_cases htype : t ≠ asSet ∧ t ≠ asSequence ∧ t ≠ asConfedSequence ∧ t ≠ asConfedSet
      · rw [if_pos htype]
        simp
      · rw [if_neg htype]
        cases getAses get l.toNat buf with
        | none => simp
        | some x =>
          -- the soft errors only grow
          apply ih
          intro hnone
          rw [soften_eq_none, soften_eq_none, soften_eq_none] at hnone
          exact herr hnone.2.2.2

/-- A segment that is accepted, and the rest of the path. -/
theorem verifyLoop_cons {as4byte permitSet : Bool} {error : Option AsErr} {t l : UInt8}
    (h : verifyLoop as4byte permitSet (n + 1) (t :: l :: buf) error cnt = none) :
    (t = asSet ∨ t = asSequence) ∧ l ≠ 0 ∧
      ∃ ases rest, getAses (if as4byte then ibufGetN32 else ibufGetN16) l.toNat buf =
          some (ases, rest) ∧
        verifyLoop as4byte permitSet n rest none (cnt + l.toNat) = none := by
  simp only [verifyLoop] at h
  generalize (if as4byte = true then ibufGetN32 else ibufGetN16) = get at h ⊢
  by_cases hl : l = 0
  · rw [if_pos hl] at h
    cases h
  rw [if_neg hl] at h
  by_cases htype : t ≠ asSet ∧ t ≠ asSequence ∧ t ≠ asConfedSequence ∧ t ≠ asConfedSet
  · rw [if_pos htype] at h
    cases h
  rw [if_neg htype] at h
  cases hget : getAses get l.toNat buf with
  | none =>
    rw [hget] at h
    cases h
  | some x =>
    obtain ⟨ases, rest⟩ := x
    simp only [hget] at h
    have hnone : soften (0 ∈ ases) (soften ((!permitSet) = true ∧ t = asSet)
        (soften (t = asConfedSequence ∨ t = asConfedSet) error)) = none :=
      by_contra fun hne => verifyLoop_ne_none hne h
    rw [hnone] at h
    rw [soften_eq_none, soften_eq_none, soften_eq_none] at hnone
    obtain ⟨-, -, hconfed, -⟩ := hnone
    exact ⟨by tauto, hl, ases, rest, rfl, h⟩

theorem ofNat_length_eq {l : UInt8} (h : ases.length = l.toNat) : UInt8.ofNat ases.length = l := by
  rw [h, UInt8.ofNat_toNat]

theorem seg_ok_of_verify {t l : UInt8} (htype : t = asSet ∨ t = asSequence) (hl : l ≠ 0)
    (hlen : ases.length = l.toNat) : Seg.Ok ⟨t, ases⟩ := by
  have hlt := l.toNat_lt
  have hpos : l.toNat ≠ 0 := fun h => hl (UInt8.toNat_inj.1 h)
  refine ⟨htype, ?_, ?_⟩
  · show 0 < ases.length
    omega
  · show ases.length ≤ 255
    omega

theorem exists_segs_of_verifyLoop {permitSet : Bool} {error : Option AsErr}
    (h : verifyLoop true permitSet n buf error cnt = none) :
    ∃ segs, buf = encode ibufAddN32 segs ∧ ∀ s ∈ segs, s.Ok := by
  induction n generalizing buf error cnt with
  | zero =>
    cases buf with
    | nil => exact ⟨[], rfl, by simp⟩
    | cons b buf => exact absurd h (by simp [verifyLoop])
  | succ n ih =>
    rcases buf with - | ⟨t, - | ⟨l, buf⟩⟩
    · exact ⟨[], rfl, by simp⟩
    · exact absurd h (by simp [verifyLoop])
    · obtain ⟨htype, hl, ases, rest, hget, hrest⟩ := verifyLoop_cons h
      obtain ⟨rfl, hlen⟩ := eq_append_of_getAses hget
      obtain ⟨segs, rfl, hok⟩ := ih hrest
      refine ⟨⟨t, ases⟩ :: segs, ?_, List.forall_mem_cons.2 ⟨seg_ok_of_verify htype hl hlen, hok⟩⟩
      rw [encode_cons, ofNat_length_eq hlen]

/-- A four-byte path that is accepted is a list of segments. -/
theorem exists_segs_of_verify {permitSet : Bool} (h : aspathVerify buf true permitSet = none) :
    ∃ segs, buf = encode ibufAddN32 segs ∧ ∀ s ∈ segs, s.Ok := by
  unfold aspathVerify at h
  split_ifs at h
  exact exists_segs_of_verifyLoop h

theorem length_of_getAses {get : List UInt8 → Option (UInt32 × List UInt8)}
    (h : getAses get n buf = some (ases, rest)) : ases.length = n := by
  induction n generalizing buf ases with
  | zero =>
    cases h
    rfl
  | succ n ih =>
    simp only [getAses, bind, Option.bind_eq_some_iff, Prod.exists] at h
    obtain ⟨as, buf', -, ases', buf'', hases, h⟩ := h
    cases h
    rw [List.length_cons, ih hases]

/-- A verified 2-byte path inflates to well-formed segments. -/
theorem exists_segs_of_inflateLoop {permitSet : Bool} {error : Option AsErr}
    (h : verifyLoop false permitSet n buf error cnt = none) (hout : inflateLoop n buf = some out) :
    ∃ segs, out = encode ibufAddN32 segs ∧ ∀ s ∈ segs, s.Ok := by
  induction n generalizing buf error cnt out with
  | zero =>
    cases buf with
    | nil =>
      cases hout
      exact ⟨[], rfl, by simp⟩
    | cons b buf => exact absurd h (by simp [verifyLoop])
  | succ n ih =>
    rcases buf with - | ⟨t, - | ⟨l, buf⟩⟩
    · cases hout
      exact ⟨[], rfl, by simp⟩
    · exact absurd h (by simp [verifyLoop])
    · obtain ⟨htype, hl, ases, rest, hget, hrest⟩ := verifyLoop_cons h
      simp only [Bool.false_eq_true, if_false] at hget
      simp only [inflateLoop, bind, Option.bind_none, if_neg hl, hget, Option.bind_some,
        Option.bind_eq_some_iff, pure, Option.some.injEq] at hout
      obtain ⟨out', hout', rfl⟩ := hout
      have hlen := length_of_getAses hget
      obtain ⟨segs, rfl, hok⟩ := ih hrest hout'
      refine ⟨⟨t, ases⟩ :: segs, ?_, List.forall_mem_cons.2 ⟨seg_ok_of_verify htype hl hlen, hok⟩⟩
      rw [encode_cons, ofNat_length_eq hlen]

/-- A two-byte path that is accepted and inflated. -/
theorem exists_segs_of_inflate {permitSet : Bool} (h : aspathVerify buf false permitSet = none)
    (hout : aspathInflate buf = some out) :
    ∃ segs, out = encode ibufAddN32 segs ∧ ∀ s ∈ segs, s.Ok := by
  unfold aspathVerify at h
  split_ifs at h
  exact exists_segs_of_inflateLoop h hout

/-! ## Paths of segments -/

/-- The numbers of a path that `aspath_deflate` changes. -/
def Flagged (segs : List Seg) : Prop := ∃ s ∈ segs, ∃ as ∈ s.ases, ushrtMax < as

instance (segs : List Seg) : Decidable (Flagged segs) := by
  unfold Flagged
  infer_instance

theorem any_flagged : (segs.any fun s => s.ases.any (ushrtMax < ·)) = true ↔ Flagged segs := by
  simp [Flagged]

theorem deflateLoop_encode (hok : ∀ s ∈ segs, s.Ok) (hfuel : segs.length ≤ n) :
    deflateLoop n (encode ibufAddN32 segs) =
      some (encode addN16 (segs.map deflateSeg), segs.any fun s => s.ases.any (ushrtMax < ·)) := by
  induction segs generalizing n with
  | nil => cases n <;> rfl
  | cons s segs ih =>
    obtain ⟨hs, hok⟩ := List.forall_mem_cons.1 hok
    cases n with
    | zero => exact absurd hfuel (by simp)
    | succ n =>
      rw [encode_cons, deflateLoop, hs.toNat_len]
      simp [getAses_ibufAddN32, ih hok (Nat.le_of_succ_le_succ hfuel), encode_cons, deflateSeg]

theorem length_le_length_encode (segs : List Seg) (add : UInt32 → List UInt8) :
    segs.length ≤ (encode add segs).length := by
  induction segs with
  | nil => exact le_rfl
  | cons s segs ih =>
    rw [encode_cons, List.length_cons, List.length_cons, List.length_cons, List.length_append]
    omega

theorem aspathDeflate_encode (hok : ∀ s ∈ segs, s.Ok) :
    aspathDeflate (encode ibufAddN32 segs) =
      some (encode addN16 (segs.map deflateSeg), segs.any fun s => s.ases.any (ushrtMax < ·)) :=
  deflateLoop_encode hok (length_le_length_encode segs _)

/-- Inflating widens every AS and changes nothing else. -/
theorem inflateLoop_encode (hok : ∀ s ∈ segs, s.Ok) (hsmall : ¬Flagged segs)
    (hfuel : segs.length ≤ n) :
    inflateLoop n (encode addN16 segs) = some (encode ibufAddN32 segs) := by
  induction segs generalizing n with
  | nil => cases n <;> rfl
  | cons s segs ih =>
    obtain ⟨hs, hok⟩ := List.forall_mem_cons.1 hok
    have hsmall' : ¬Flagged segs := fun ⟨s', hs', h⟩ => hsmall ⟨s', List.mem_cons_of_mem _ hs', h⟩
    have hget : getAses ibufGetN16 s.ases.length (s.ases.flatMap addN16 ++ encode addN16 segs) =
        some (s.ases, encode addN16 segs) := by
      apply getAses_flatMap
      intro as has
      have hle : as ≤ ushrtMax :=
        UInt32.not_lt.1 fun hlt => hsmall ⟨s, List.mem_cons_self, as, has, hlt⟩
      exact ibufGetN16_addN16 hle
    have hne : UInt8.ofNat s.ases.length ≠ 0 := by
      intro h
      have hzero := congrArg UInt8.toNat h
      rw [hs.toNat_len] at hzero
      exact absurd hzero hs.pos.ne'
    cases n with
    | zero => exact absurd hfuel (by simp)
    | succ n =>
      rw [encode_cons, inflateLoop, if_neg hne, hs.toNat_len]
      simp [hget, ih hok hsmall' (Nat.le_of_succ_le_succ hfuel), encode_cons]

theorem aspathInflate_encode (hok : ∀ s ∈ segs, s.Ok) (hsmall : ¬Flagged segs) :
    aspathInflate (encode addN16 segs) = some (encode ibufAddN32 segs) :=
  inflateLoop_encode hok hsmall (length_le_length_encode segs _)

/-- How a segment counts. -/
def Seg.weight (s : Seg) : ℕ := if s.type = asSet then 1 else s.ases.length

def pathCount (segs : List Seg) : ℕ := (segs.map Seg.weight).sum

theorem Seg.Ok.weight_pos {s : Seg} (h : s.Ok) : 0 < s.weight := by
  unfold Seg.weight
  split_ifs
  · exact Nat.one_pos
  · exact h.pos

theorem countLoop_encode (hok : ∀ s ∈ segs, s.Ok) (hfuel : segs.length ≤ n) :
    countLoop n (encode ibufAddN32 segs) = pathCount segs := by
  induction segs generalizing n with
  | nil => cases n <;> rfl
  | cons s segs ih =>
    obtain ⟨hs, hok⟩ := List.forall_mem_cons.1 hok
    cases n with
    | zero => exact absurd hfuel (by simp)
    | succ n =>
      rw [encode_cons, countLoop, hs.toNat_len,
        List.drop_left' (length_flatMap_ibufAddN32 s.ases), ih hok (Nat.le_of_succ_le_succ hfuel)]
      simp [pathCount, Seg.weight]

theorem aspathCount_encode (hok : ∀ s ∈ segs, s.Ok) :
    aspathCount (encode ibufAddN32 segs) = pathCount segs :=
  countLoop_encode hok (length_le_length_encode segs _)

/-! ## What is only in the old path -/

/-- The path without its first `cnt` ASes, and the segment that was cut. -/
def remaining : List Seg → ℕ → Option OpenSeg × List Seg
  | segs, 0 => (none, segs)
  | [], _ => (none, [])
  | s :: rest, cnt@(_ + 1) =>
    if s.type ≠ asSet ∧ cnt < s.ases.length then
      (some ⟨s.type, UInt8.ofNat s.ases.length, cnt⟩, ⟨s.type, s.ases.drop cnt⟩ :: rest)
    else remaining rest (cnt - s.weight)

/-- Its bytes: a segment that was cut has no header. -/
def restBytes (x : Option OpenSeg × List Seg) : List UInt8 :=
  (encode ibufAddN32 x.2).drop (if x.1.isSome then 2 else 0)

@[simp] theorem remaining_zero (segs : List Seg) : remaining segs 0 = (none, segs) := by
  cases segs <;> rfl

theorem pathCount_cons (s : Seg) (segs : List Seg) :
    pathCount (s :: segs) = s.weight + pathCount segs := by
  simp [pathCount]

/-- What is left of a path with segments that were accepted. -/
structure RemainingOk (segs : List Seg) (cnt : ℕ) (x : Option OpenSeg × List Seg) : Prop where
  ok : ∀ s ∈ x.2, s.Ok
  count : pathCount x.2 + cnt = pathCount segs
  cut : ∀ seg, x.1 = some seg → ∃ s rest, x.2 = s :: rest ∧ seg.segType = s.type ∧
    seg.segLen.toNat - seg.nseg = s.ases.length

/-- What is left after `cnt` ASes is well formed and counts that many less. -/
theorem remaining_ok (hok : ∀ s ∈ segs, s.Ok) (hcnt : cnt ≤ pathCount segs) :
    RemainingOk segs cnt (remaining segs cnt) := by
  induction segs generalizing cnt with
  | nil =>
    obtain rfl : cnt = 0 := Nat.le_zero.1 hcnt
    exact ⟨by simp, rfl, by simp⟩
  | cons s segs ih =>
    obtain ⟨hs, hoks⟩ := List.forall_mem_cons.1 hok
    cases cnt with
    | zero => exact ⟨by simpa using hok, by simp, by simp⟩
    | succ cnt =>
      rw [remaining]
      split_ifs with hcut
      -- the segment is cut: the rest of it is a segment of the same type
      · have hweight : s.weight = s.ases.length := if_neg hcut.1
        have hdrop : (s.ases.drop (cnt + 1)).length = s.ases.length - (cnt + 1) :=
          List.length_drop ..
        have hle := hs.le
        refine ⟨List.forall_mem_cons.2 ⟨⟨hs.type, ?_, ?_⟩, hoks⟩, ?_, ?_⟩
        · show 0 < (s.ases.drop (cnt + 1)).length
          omega
        · show (s.ases.drop (cnt + 1)).length ≤ 255
          omega
        -- what is left is shorter by the hops that were taken
        · have hnew : (Seg.mk s.type (s.ases.drop (cnt + 1))).weight =
              s.ases.length - (cnt + 1) := by
            rw [Seg.weight, if_neg hcut.1]
            exact hdrop
          rw [pathCount_cons, pathCount_cons, hnew, hweight]
          omega
        · rintro _ ⟨rfl⟩
          refine ⟨_, _, rfl, rfl, ?_⟩
          show (UInt8.ofNat s.ases.length).toNat - (cnt + 1) = (s.ases.drop (cnt + 1)).length
          rw [hs.toNat_len, hdrop]
      -- the whole segment is taken, and the count goes down by its weight
      · have hweight : s.weight ≤ cnt + 1 := by
          unfold Seg.weight
          split_ifs with hset
          · omega
          · push Not at hcut
            exact hcut hset
        rw [pathCount_cons] at hcnt
        have hrest := ih hoks (show cnt + 1 - s.weight ≤ pathCount segs by omega)
        refine ⟨hrest.ok, ?_, hrest.cut⟩
        have hcount := hrest.count
        show pathCount (remaining segs (cnt + 1 - s.weight)).2 + (cnt + 1) = _
        rw [pathCount_cons]
        omega

/-- The first loop copies bytes. -/
theorem takeOld_encode (hok : ∀ s ∈ segs, s.Ok) (hcnt : cnt ≤ pathCount segs)
    (hfuel : segs.length ≤ n) :
    ∃ out, takeOld n (encode ibufAddN32 segs) cnt =
        some (out, restBytes (remaining segs cnt), (remaining segs cnt).1) ∧
      encode ibufAddN32 segs = out ++ restBytes (remaining segs cnt) := by
  induction segs generalizing cnt n with
  | nil =>
    obtain rfl : cnt = 0 := Nat.le_zero.1 hcnt
    exact ⟨[], by simp [takeOld, restBytes], by simp [restBytes]⟩
  | cons s segs ih =>
    obtain ⟨hs, hoks⟩ := List.forall_mem_cons.1 hok
    rw [pathCount_cons] at hcnt
    cases cnt with
    | zero => exact ⟨[], by simp [takeOld, restBytes], by simp [restBytes]⟩
    | succ cnt =>
      cases n with
      | zero => exact absurd hfuel (by simp)
      | succ n =>
        rw [encode_cons, takeOld, hs.toNat_len, remaining]
        by_cases hcut : s.type ≠ asSet ∧ cnt + 1 < s.ases.length
        · -- the segment is cut
          rw [if_pos hcut, if_pos hcut]
          have hlen : (s.ases.take (cnt + 1)).length = cnt + 1 := by
            rw [List.length_take]
            omega
          have hget := getAses_ibufAddN32 (s.ases.take (cnt + 1))
            ((s.ases.drop (cnt + 1)).flatMap ibufAddN32 ++ encode ibufAddN32 segs)
          rw [← List.append_assoc, ← List.flatMap_append, List.take_append_drop, hlen] at hget
          refine ⟨s.type :: UInt8.ofNat s.ases.length ::
            (s.ases.take (cnt + 1)).flatMap ibufAddN32, ?_, ?_⟩
          · simp [hget, restBytes, encode_cons]
          · simp only [restBytes, Option.isSome_some, if_true, encode_cons, List.drop_succ_cons,
              List.drop_zero, List.cons_append]
            rw [← List.append_assoc, ← List.flatMap_append, List.take_append_drop]
        -- the segment is copied whole
        · rw [if_neg hcut, if_neg hcut]
          have hweight : (if s.type = asSet then 1 else s.ases.length) = s.weight := rfl
          obtain ⟨out, htake, heq⟩ := ih hoks (show cnt + 1 - s.weight ≤ pathCount segs by omega)
            (Nat.le_of_succ_le_succ hfuel)
          refine ⟨s.type :: UInt8.ofNat s.ases.length :: (s.ases.flatMap ibufAddN32 ++ out), ?_, ?_⟩
          · simp [getAses_ibufAddN32, hweight, htake]
          · rw [heq]
            simp

/-! ## The merge loses bytes -/

theorem mergeAses_length (h : mergeAses n inb = some (ases, inb')) :
    inb.length = inb'.length + 8 * n ∧ ases.length = n := by
  induction n generalizing inb ases with
  | zero =>
    cases h
    exact ⟨rfl, rfl⟩
  | succ n ih =>
    simp only [mergeAses, bind, Option.bind_eq_some_iff, Prod.exists] at h
    obtain ⟨as, buf₁, hget, as4, buf₂, hget4, as', -, ases', buf₃, hases, h⟩ := h
    cases h
    obtain ⟨hlen, hn⟩ := ih hases
    have hlen₁ := congrArg List.length (eq_append_of_ibufGetN32 hget)
    have hlen₂ := congrArg List.length (eq_append_of_ibufGetN32 hget4)
    rw [List.length_append, length_ibufAddN32] at hlen₁ hlen₂
    exact ⟨by omega, by rw [List.length_cons, hn]⟩

/-- A round that starts a segment. -/
theorem mergeLoop_new {t l : UInt8} (h : mergeLoop n (t :: l :: inb) in4 none = some out) :
    ∃ k ases inb' in4' out', n = k + 1 ∧ in4 = t :: l :: in4' ∧
      mergeAses l.toNat inb = some (ases, inb') ∧ mergeLoop k inb' in4' none = some out' ∧
      out = t :: l :: (ases.flatMap ibufAddN32 ++ out') := by
  cases n with
  | zero => exact absurd h (by simp [mergeLoop])
  | succ k =>
    rcases in4 with - | ⟨t4, - | ⟨l4, in4⟩⟩
    · exact absurd h (by simp [mergeLoop])
    · exact absurd h (by simp [mergeLoop])
    · simp only [mergeLoop, bind, Option.bind_none] at h
      split_ifs at h with hbail
      push Not at hbail
      obtain ⟨rfl, rfl⟩ := hbail
      simp only [Option.bind_eq_some_iff, Prod.exists, pure, Option.some.injEq] at h
      obtain ⟨ases, inb', hases, out', hout, rfl⟩ := h
      exact ⟨k, ases, inb', in4, out', rfl, rfl, hases, hout, rfl⟩

/-- A round that goes on with a segment. -/
theorem mergeLoop_cut {seg : OpenSeg} (hne : inb ≠ [])
    (h : mergeLoop n inb in4 (some seg) = some out) :
    ∃ k l4 ases inb' in4' out', n = k + 1 ∧ in4 = seg.segType :: l4 :: in4' ∧
      seg.segLen.toNat - seg.nseg = l4.toNat ∧
      mergeAses (seg.segLen.toNat - seg.nseg) inb = some (ases, inb') ∧
      mergeLoop k inb' in4' none = some out' ∧ out = ases.flatMap ibufAddN32 ++ out' := by
  cases n with
  | zero => exact absurd h (by cases inb <;> simp_all [mergeLoop])
  | succ k =>
    obtain ⟨b, inb, rfl⟩ := List.exists_cons_of_ne_nil hne
    rcases in4 with - | ⟨t4, - | ⟨l4, in4⟩⟩
    · exact absurd h (by simp [mergeLoop])
    · exact absurd h (by simp [mergeLoop])
    · simp only [mergeLoop, bind, Option.bind_none] at h
      split_ifs at h with hbail
      push Not at hbail
      simp only [Option.bind_eq_some_iff, Prod.exists, pure, Option.some.injEq] at h
      obtain ⟨ases, inb', hases, out', hout, rfl⟩ := h
      exact ⟨k, l4, ases, inb', in4, out', rfl, by rw [hbail.1], hbail.2, hases, hout, rfl⟩

theorem mergeLoop_length_le (h : mergeLoop n inb in4 none = some out) :
    out.length ≤ inb.length := by
  induction n generalizing inb in4 out with
  | zero =>
    cases inb with
    | nil =>
      cases h
      exact le_rfl
    | cons b inb => exact absurd h (by simp [mergeLoop])
  | succ n ih =>
    rcases inb with - | ⟨t, - | ⟨l, inb⟩⟩
    · cases h
      exact le_rfl
    · exact absurd h (by simp [mergeLoop])
    · obtain ⟨k, ases, inb', in4', out', hk, -, hases, hout, rfl⟩ := mergeLoop_new h
      cases hk
      obtain ⟨hlen, hn⟩ := mergeAses_length hases
      have hle := ih hout
      simp only [List.length_cons, List.length_append, length_flatMap_ibufAddN32]
      omega

/-- Two numbers are read for each one that is written. -/
theorem mergeLoop_length_lt {x : Option OpenSeg × List Seg} (hx : RemainingOk segs cnt x)
    (hne : x.2 ≠ []) (h : mergeLoop n (restBytes x) in4 x.1 = some out) :
    out.length < (restBytes x).length := by
  obtain ⟨open_, segs'⟩ := x
  obtain ⟨s, rest, rfl⟩ := List.exists_cons_of_ne_nil hne
  have hs := hx.ok s List.mem_cons_self
  have hpos := hs.pos
  cases open_ with
  -- a new segment: type and length come from the 4-byte path, the ASNs from both
  | none =>
    have hbytes : restBytes (none, s :: rest) = encode ibufAddN32 (s :: rest) := rfl
    rw [hbytes, encode_cons] at h ⊢
    obtain ⟨k, ases, inb', in4', out', -, -, hases, hout, rfl⟩ := mergeLoop_new h
    rw [hs.toNat_len] at hases
    obtain ⟨hlen, hn⟩ := mergeAses_length hases
    have hle := mergeLoop_length_le hout
    simp only [List.length_cons, List.length_append, length_flatMap_ibufAddN32] at hlen ⊢
    omega
  -- the rest of the segment that was cut
  | some seg =>
    obtain ⟨s', rest', hs', -, hlen'⟩ := hx.cut seg rfl
    cases hs'
    have hbytes : restBytes (some seg, s :: rest) =
        s.ases.flatMap ibufAddN32 ++ encode ibufAddN32 rest := rfl
    rw [hbytes] at h ⊢
    have hbne : s.ases.flatMap ibufAddN32 ++ encode ibufAddN32 rest ≠ [] := by
      intro hnil
      have := congrArg List.length hnil
      rw [List.length_append, length_flatMap_ibufAddN32, List.length_nil] at this
      omega
    obtain ⟨k, l4, ases, inb', in4', out', -, -, -, hases, hout, rfl⟩ := mergeLoop_cut hbne h
    rw [hlen'] at hases
    obtain ⟨hlen, hn⟩ := mergeAses_length hases
    have hle := mergeLoop_length_le hout
    simp only [List.length_append, length_flatMap_ibufAddN32] at hlen ⊢
    omega

/-- The merge of `AS_PATH` and an `AS4_PATH` that is not empty. -/
theorem length_aspathDomerge_lt (hok : ∀ s ∈ segs, s.Ok) (hcnt : cnt < pathCount segs)
    (h : aspathDomerge (encode ibufAddN32 segs) in4 cnt = some out) :
    out.length < (encode ibufAddN32 segs).length := by
  have hrem := remaining_ok hok hcnt.le
  have hne : (remaining segs cnt).2 ≠ [] := by
    intro hnil
    have hcount := hrem.count
    rw [hnil] at hcount
    simp only [pathCount, List.map_nil, List.sum_nil] at hcount hcnt
    omega
  obtain ⟨old, htake, heq⟩ := takeOld_encode hok hcnt.le
    (length_le_length_encode segs ibufAddN32)
  simp only [aspathDomerge, htake, bind, Option.bind_some, Option.bind_eq_some_iff, pure,
    Option.some.injEq] at h
  obtain ⟨merged, hmerged, rfl⟩ := h
  have hlt := mergeLoop_length_lt hrem hne hmerged
  have hlen := congrArg List.length heq
  rw [List.length_append] at hlen ⊢
  omega

/-! ## Through an OLD speaker -/

theorem prependAs_ok {step : UInt32 × Bool} (hok : ∀ s ∈ segs, s.Ok) :
    ∀ s ∈ prependAs step segs, s.Ok := by
  have hnew : Seg.Ok ⟨asSequence, [step.1]⟩ := ⟨.inr rfl, Nat.one_pos, by simp⟩
  cases segs with
  | nil => simpa [prependAs] using hnew
  | cons s segs =>
    obtain ⟨hs, hoks⟩ := List.forall_mem_cons.1 hok
    rw [prependAs]
    split_ifs with hfull
    · exact List.forall_mem_cons.2 ⟨hnew, hok⟩
    · push Not at hfull
      exact List.forall_mem_cons.2 ⟨⟨hs.type, Nat.succ_pos _, hfull.2.2⟩, hoks⟩

theorem pathCount_prependAs (step : UInt32 × Bool) (segs : List Seg) :
    pathCount (prependAs step segs) = pathCount segs + 1 := by
  have hnew : Seg.weight ⟨asSequence, [step.1]⟩ = 1 := by simp [Seg.weight]
  cases segs with
  | nil => simp [prependAs, pathCount, hnew]
  | cons s segs =>
    rw [prependAs]
    split_ifs with hfull
    · rw [pathCount_cons, hnew, Nat.add_comm]
    · push Not at hfull
      have hne : s.type ≠ asSet := by
        rw [hfull.2.1]
        decide
      simp only [pathCount_cons, Seg.weight, if_neg hne, List.length_cons]
      omega

theorem deflateSeg_ok {s : Seg} (h : s.Ok) : (deflateSeg s).Ok :=
  ⟨h.type, by simpa [deflateSeg] using h.pos, by simpa [deflateSeg] using h.le⟩

theorem map_deflateSeg_prependAs {step : UInt32 × Bool} (hstep : step.1 ≤ ushrtMax)
    (segs : List Seg) :
    (prependAs step segs).map deflateSeg = prependAs step (segs.map deflateSeg) := by
  have has : (if ushrtMax < step.1 then asTrans else step.1) = step.1 :=
    if_neg (UInt32.not_lt.2 hstep)
  cases segs with
  | nil => simp [prependAs, deflateSeg, has]
  | cons s segs =>
    have hlen : (deflateSeg s).ases.length = s.ases.length := by simp [deflateSeg]
    have htype : (deflateSeg s).type = s.type := rfl
    rw [List.map_cons, prependAs, prependAs, hlen, htype]
    split_ifs
    · simp [deflateSeg, has]
    · simp [deflateSeg, has]

theorem not_flagged_map_deflateSeg (segs : List Seg) : ¬Flagged (segs.map deflateSeg) := by
  rintro ⟨s, hs, as, has, hlt⟩
  obtain ⟨s, -, rfl⟩ := List.mem_map.1 hs
  obtain ⟨as, -, rfl⟩ := List.mem_map.1 has
  split_ifs at hlt with h
  · exact absurd hlt (by decide)
  · exact h hlt

theorem map_deflateSeg_of_not_flagged (h : ¬Flagged segs) : segs.map deflateSeg = segs := by
  have hseg : ∀ s ∈ segs, deflateSeg s = s := by
    intro s hs
    have hases : (s.ases.map fun as => if ushrtMax < as then asTrans else as) = s.ases.map id := by
      apply List.map_congr_left
      intro as has
      exact if_neg fun hlt => h ⟨s, hs, as, has, hlt⟩
    rw [deflateSeg, hases, List.map_id]
  rw [List.map_congr_left hseg, List.map_id']

/-- Deflating does not change the shape of a path. -/
theorem length_encode_map_deflateSeg (segs : List Seg) :
    (encode ibufAddN32 (segs.map deflateSeg)).length = (encode ibufAddN32 segs).length := by
  induction segs with
  | nil => rfl
  | cons s segs ih => simp [length_encode_cons, ih, deflateSeg]

theorem pathCount_map_deflateSeg (segs : List Seg) :
    pathCount (segs.map deflateSeg) = pathCount segs := by
  induction segs with
  | nil => rfl
  | cons s segs ih => simp [pathCount_cons, ih, deflateSeg, Seg.weight]

section Prepend

variable {steps : List (UInt32 × Bool)}

theorem prepend_ok (hok : ∀ s ∈ segs, s.Ok) : ∀ s ∈ prepend steps segs, s.Ok := by
  induction steps generalizing segs with
  | nil => exact hok
  | cons step steps ih => exact ih (prependAs_ok hok)

theorem pathCount_prepend (steps : List (UInt32 × Bool)) (segs : List Seg) :
    pathCount (prepend steps segs) = pathCount segs + steps.length := by
  induction steps generalizing segs with
  | nil => rfl
  | cons step steps ih =>
    have hstep := ih (prependAs step segs)
    rw [pathCount_prependAs] at hstep
    rw [List.length_cons, Nat.add_comm steps.length, ← Nat.add_assoc]
    exact hstep

theorem map_deflateSeg_prepend (hsteps : ∀ step ∈ steps, step.1 ≤ ushrtMax) (segs : List Seg) :
    (prepend steps segs).map deflateSeg = prepend steps (segs.map deflateSeg) := by
  induction steps generalizing segs with
  | nil => rfl
  | cons step steps ih =>
    obtain ⟨hstep, hsteps⟩ := List.forall_mem_cons.1 hsteps
    show (prepend steps (prependAs step segs)).map deflateSeg =
      prepend steps (prependAs step (segs.map deflateSeg))
    rw [ih hsteps, map_deflateSeg_prependAs hstep]

/-- The path that arrives, before the merge. -/
theorem aspathInflate_relay (hok : ∀ s ∈ segs, s.Ok) (hsteps : ∀ step ∈ steps, step.1 ≤ ushrtMax) :
    aspathInflate (relay steps segs).1 =
      some (encode ibufAddN32 ((prepend steps segs).map deflateSeg)) := by
  have hok' : ∀ s ∈ (prepend steps segs).map deflateSeg, s.Ok := by
    intro s hs
    obtain ⟨s', hs', rfl⟩ := List.mem_map.1 hs
    exact deflateSeg_ok (prepend_ok hok s' hs')
  rw [relay, ← map_deflateSeg_prepend hsteps]
  exact aspathInflate_encode hok' (not_flagged_map_deflateSeg _)

/-- A path with a number that was sent as `AS_TRANS` is not put together again. -/
theorem aspathMerge_relay_ne (hok : ∀ s ∈ segs, s.Ok) (hflag : Flagged segs) :
    aspathMerge (encode ibufAddN32 ((prepend steps segs).map deflateSeg)) (encode ibufAddN32 segs) ≠
      some (encode ibufAddN32 (prepend steps segs)) := by
  intro h
  have hok' : ∀ s ∈ (prepend steps segs).map deflateSeg, s.Ok := by
    intro s hs
    obtain ⟨s', hs', rfl⟩ := List.mem_map.1 hs
    exact deflateSeg_ok (prepend_ok hok s' hs')
  have hpos : 0 < pathCount segs := by
    obtain ⟨s, hs, -⟩ := hflag
    have hle : s.weight ≤ pathCount segs := List.single_le_sum (by simp) _ (List.mem_map_of_mem hs)
    exact (hok s hs).weight_pos.trans_le hle
  have hcount : pathCount ((prepend steps segs).map deflateSeg) =
      pathCount segs + steps.length := by
    rw [pathCount_map_deflateSeg, pathCount_prepend]
  simp only [aspathMerge, aspathCount_encode hok, aspathCount_encode hok'] at h
  rw [if_neg (by omega)] at h
  split_ifs at h
  have hlt := length_aspathDomerge_lt hok' (by omega) h
  rw [length_encode_map_deflateSeg] at hlt
  exact absurd hlt (lt_irrefl _)

/-- The path survives if no number needs four bytes, as no `AS4_PATH` is sent then. -/
theorem receive_relay_iff (hok : ∀ s ∈ segs, s.Ok) (hsteps : ∀ step ∈ steps, step.1 ≤ ushrtMax) :
    receive (relay steps segs).1 (relay steps segs).2 =
        some (encode ibufAddN32 (prepend steps segs)) ↔
      ∀ s ∈ segs, ∀ as ∈ s.ases, as ≤ ushrtMax := by
  have hiff : (∀ s ∈ segs, ∀ as ∈ s.ases, as ≤ ushrtMax) ↔ ¬Flagged segs := by
    simp only [Flagged, not_exists, not_and, UInt32.not_lt]
  rw [hiff, receive, aspathInflate_relay hok hsteps]
  by_cases hflag : Flagged segs
  · have hsent : (relay steps segs).2 = some (encode ibufAddN32 segs) :=
      if_pos (any_flagged.2 hflag)
    rw [hsent]
    constructor
    · intro h
      exact absurd h (aspathMerge_relay_ne hok hflag)
    · intro h
      exact absurd hflag h
  · have hsent : (relay steps segs).2 = none := if_neg fun h => hflag (any_flagged.1 h)
    rw [hsent, map_deflateSeg_prepend hsteps, map_deflateSeg_of_not_flagged hflag]
    exact ⟨fun _ => hflag, fun _ => rfl⟩

end Prepend

/-! ## Any two paths -/

/-- What is promised of a merge: if the path is not invalidated it has as many ASes as before, and
    it is the one before if `AS4_PATH` is longer. -/
def MergeKeeps (aspath attr : List UInt8) : Prop :=
  ∀ merged, aspathMerge aspath attr = some merged →
    if aspathCount aspath < aspathCount attr then merged = aspath
    else aspathCount merged = aspathCount aspath

/-- The first segment of `AS4_PATH` is not the one it would be merged with. -/
def Mismatch (segs segs4 : List Seg) : Prop :=
  match (remaining segs (pathCount segs - pathCount segs4)).2, segs4 with
  | s :: _, s4 :: _ => s.type ≠ s4.type ∨ s.ases.length ≠ s4.ases.length
  | _, _ => False

variable {segs4 : List Seg}

/-- A segment boundary that does not fit makes the merge fail. -/
theorem aspathDomerge_mismatch (hok : ∀ s ∈ segs, s.Ok) (hok4 : ∀ s ∈ segs4, s.Ok)
    (h : Mismatch segs segs4) :
    aspathDomerge (encode ibufAddN32 segs) (encode ibufAddN32 segs4)
      (pathCount segs - pathCount segs4) = none := by
  have hcnt : pathCount segs - pathCount segs4 ≤ pathCount segs := Nat.sub_le _ _
  have hrem := remaining_ok hok hcnt
  obtain ⟨old, htake, -⟩ := takeOld_encode hok hcnt (length_le_length_encode segs ibufAddN32)
  simp only [aspathDomerge, htake, bind, Option.bind_some, Option.bind_eq_none_iff]
  intro merged hmerged
  exfalso
  unfold Mismatch at h
  clear htake
  generalize remaining segs (pathCount segs - pathCount segs4) = x at hrem hmerged h
  obtain ⟨open_, segs'⟩ := x
  cases segs' with
  | nil => exact h
  | cons s rest =>
    cases segs4 with
    | nil => exact h
    | cons s4 rest4 =>
      have hs := hrem.ok s List.mem_cons_self
      have hs4 := hok4 s4 List.mem_cons_self
      have hpos := hs.pos
      simp only at h
      cases open_ with
      -- at a new segment the two headers are compared
      | none =>
        have hbytes : restBytes (none, s :: rest) = encode ibufAddN32 (s :: rest) := rfl
        rw [hbytes, encode_cons, encode_cons] at hmerged
        obtain ⟨_, _, _, _, _, -, heq, -, -, -⟩ := mergeLoop_new hmerged
        rw [List.cons.injEq, List.cons.injEq] at heq
        have hlen := congrArg UInt8.toNat heq.2.1
        rw [hs.toNat_len, hs4.toNat_len] at hlen
        exact h.elim (fun hne => hne heq.1.symm) fun hne => hne hlen.symm
      -- in the segment that was cut the type and the length that is left are compared
      | some seg =>
        obtain ⟨s', rest', hs', htype, hlen'⟩ := hrem.cut seg rfl
        cases hs'
        have hbytes : restBytes (some seg, s :: rest) =
            s.ases.flatMap ibufAddN32 ++ encode ibufAddN32 rest := rfl
        have hbne : s.ases.flatMap ibufAddN32 ++ encode ibufAddN32 rest ≠ [] := by
          intro hnil
          have hlen := congrArg List.length hnil
          rw [List.length_append, length_flatMap_ibufAddN32, List.length_nil] at hlen
          omega
        rw [hbytes, encode_cons] at hmerged
        obtain ⟨_, l4, _, _, _, _, -, heq, hl4, -, -, -⟩ := mergeLoop_cut hbne hmerged
        rw [List.cons.injEq, List.cons.injEq] at heq
        rw [hlen', ← heq.2.1, hs4.toNat_len] at hl4
        exact h.elim (fun hne => hne (htype.symm.trans heq.1.symm)) fun hne => hne hl4

/-- The merge reads no AS number: `AS4_PATH` is dropped as it counts more, it is empty, it has more
    bytes, or its first segment is not the one it would be merged with. -/
def Unread (segs segs4 : List Seg) : Prop :=
  pathCount segs < pathCount segs4 ∨ segs4 = [] ∨
    (encode ibufAddN32 segs).length < (encode ibufAddN32 segs4).length ∨ Mismatch segs segs4

instance (segs segs4 : List Seg) : Decidable (Unread segs segs4) := by
  unfold Unread Mismatch
  cases (remaining segs (pathCount segs - pathCount segs4)).2 with
  | nil => infer_instance
  | cons s rest => cases segs4 <;> infer_instance

/-- Where no AS number is read nothing goes wrong. -/
theorem mergeKeeps_of (hok : ∀ s ∈ segs, s.Ok) (hok4 : ∀ s ∈ segs4, s.Ok)
    (h : Unread segs segs4) :
    MergeKeeps (encode ibufAddN32 segs) (encode ibufAddN32 segs4) := by
  intro merged hmerged
  simp only [aspathMerge, aspathCount_encode hok, aspathCount_encode hok4] at hmerged ⊢
  by_cases hlonger : pathCount segs < pathCount segs4
  · rw [if_pos hlonger] at hmerged ⊢
    exact (Option.some.inj hmerged).symm
  rw [if_neg hlonger] at hmerged ⊢
  split_ifs at hmerged with hbytes
  rcases h with h | rfl | h | h
  -- a path of fewer hops keeps the old one
  · exact absurd h hlonger
  · -- all of the path is only in the old one
    have hcnt : pathCount segs - pathCount [] = pathCount segs := rfl
    have hrem := remaining_ok hok (le_refl (pathCount segs))
    have hnil : (remaining segs (pathCount segs)).2 = [] := by
      by_contra hne
      obtain ⟨s, rest, heq⟩ := List.exists_cons_of_ne_nil hne
      have hcount := hrem.count
      have hpos := (hrem.ok s (heq ▸ List.mem_cons_self)).weight_pos
      rw [heq, pathCount_cons] at hcount
      omega
    have hbytes : restBytes (remaining segs (pathCount segs)) = [] := by
      rw [restBytes, hnil]
      simp
    obtain ⟨old, htake, heq⟩ := takeOld_encode hok le_rfl (length_le_length_encode segs ibufAddN32)
    rw [hbytes] at htake heq
    have hend : ∀ seg, mergeLoop (encode ibufAddN32 segs).length [] [] seg = some [] := by
      intro seg
      cases (encode ibufAddN32 segs).length <;> rfl
    rw [hcnt] at hmerged
    simp only [aspathDomerge, htake, encode_nil, bind, Option.bind_some, hend, pure,
      Option.some.injEq] at hmerged
    rw [← hmerged, ← heq, aspathCount_encode hok]
  · exact absurd h hbytes
  · rw [aspathDomerge_mismatch hok hok4 h] at hmerged
    cases hmerged

/-- Where a number is read the path that comes out, if there is one, has lost bytes. -/
theorem length_aspathMerge_lt (hok : ∀ s ∈ segs, s.Ok) (hok4 : ∀ s ∈ segs4, s.Ok)
    (hread : ¬Unread segs segs4)
    (h : aspathMerge (encode ibufAddN32 segs) (encode ibufAddN32 segs4) = some out) :
    out.length < (encode ibufAddN32 segs).length := by
  unfold Unread at hread
  push Not at hread
  obtain ⟨hcount, hne, hbytes, -⟩ := hread
  have hpos : 0 < pathCount segs4 := by
    obtain ⟨s, rest, rfl⟩ := List.exists_cons_of_ne_nil hne
    have hs := (hok4 s List.mem_cons_self).weight_pos
    rw [pathCount_cons]
    omega
  simp only [aspathMerge, aspathCount_encode hok, aspathCount_encode hok4] at h
  rw [if_neg (Nat.not_lt.2 hcount), if_neg (Nat.not_lt.2 hbytes)] at h
  exact length_aspathDomerge_lt hok (by omega) h

/-- The segments of an accepted path, with AS numbers of four bytes. -/
def IsPath (path : List UInt8) (segs : List Seg) : Prop :=
  path = encode ibufAddN32 segs ∧ ∀ s ∈ segs, s.Ok

/-- Paths that survive an OLD speaker, and merges that keep what they should: they do if they read
    no AS number, and if they read one the path has lost bytes. -/
theorem aspathMerge_as4 {path : List UInt8} {permitSet : Bool}
    (h : aspathVerify path true permitSet = none) :
    (∃ segs, IsPath path segs) ∧ ∀ segs, IsPath path segs →
      aspathDeflate path = some (encode addN16 (segs.map deflateSeg),
        segs.any fun s => s.ases.any (ushrtMax < ·)) ∧
      (∀ steps : List (UInt32 × Bool), (∀ step ∈ steps, step.1 ≤ ushrtMax) →
        (receive (relay steps segs).1 (relay steps segs).2 =
            some (encode ibufAddN32 (prepend steps segs)) ↔
          ∀ s ∈ segs, ∀ as ∈ s.ases, as ≤ ushrtMax)) ∧
      ∀ old aspath permitSet', aspathVerify old false permitSet' = none →
        aspathInflate old = some aspath →
        (∃ segs', IsPath aspath segs') ∧ ∀ segs', IsPath aspath segs' →
          (Unread segs' segs → MergeKeeps aspath path) ∧
          (¬Unread segs' segs → ∀ merged, aspathMerge aspath path = some merged →
            merged.length < aspath.length) := by
  refine ⟨exists_segs_of_verify h, ?_⟩
  rintro segs ⟨rfl, hok⟩
  refine ⟨aspathDeflate_encode hok, fun steps hsteps => receive_relay_iff hok hsteps, ?_⟩
  intro old aspath permitSet' hold haspath
  refine ⟨exists_segs_of_inflate hold haspath, ?_⟩
  rintro segs' ⟨rfl, hok'⟩
  exact ⟨mergeKeeps_of hok' hok, fun hread _ => length_aspathMerge_lt hok' hok hread⟩

/-- A path of two-byte numbers comes back with one in front. `AS4_PATH` 70000 (70001) is not merged
    with 65001 (AS_TRANS 65002) (AS_TRANS), whose sequence is older than all of it, and it is read
    into 65001 AS_TRANS (1 5 5), which comes out 8 bytes shorter. -/
theorem aspathMerge_as4_pair :
    receive (relay [(65001, false)] [⟨asSequence, [65000]⟩]).1
        (relay [(65001, false)] [⟨asSequence, [65000]⟩]).2 =
      some (encode ibufAddN32 [⟨asSequence, [65001, 65000]⟩]) ∧
    MergeKeeps
      (encode ibufAddN32 [⟨asSequence, [65001]⟩, ⟨asSet, [asTrans, 65002]⟩, ⟨asSet, [asTrans]⟩])
      (encode ibufAddN32 [⟨asSequence, [70000]⟩, ⟨asSet, [70001]⟩]) ∧
    ∃ merged, aspathMerge
        (encode ibufAddN32 [⟨asSequence, [65001, asTrans]⟩, ⟨asSet, [1, 5, 5]⟩])
        (encode ibufAddN32 [⟨asSequence, [70000]⟩, ⟨asSet, [70001]⟩]) = some merged ∧
      merged.length < 24 := by
  have hverify : aspathVerify (encode ibufAddN32 [⟨asSequence, [65000]⟩]) true true = none := by
    decide
  have hsmall := (aspathMerge_as4 hverify).2 _ ⟨rfl, by decide⟩
  have hsteps : ∀ step ∈ [((65001 : UInt32), false)], step.1 ≤ ushrtMax :=
    List.forall_mem_singleton.2 (by decide)
  have hases : ∀ s ∈ [(⟨asSequence, [65000]⟩ : Seg)], ∀ as ∈ s.ases, as ≤ ushrtMax :=
    List.forall_mem_singleton.2 (List.forall_mem_singleton.2 (by decide))
  have hverify' :
      aspathVerify (encode ibufAddN32 [⟨asSequence, [70000]⟩, ⟨asSet, [70001]⟩]) true true =
        none := by
    decide
  have hpair := ((aspathMerge_as4 hverify').2 _ ⟨rfl, by decide⟩).2.2
  refine ⟨(hsmall.2.1 _ hsteps).2 hases, ?_, _, rfl, ?_⟩
  · exact ((hpair (encode addN16 [⟨asSequence, [65001]⟩, ⟨asSet, [asTrans, 65002]⟩,
      ⟨asSet, [asTrans]⟩]) _ true (by decide) (by decide)).2 _ ⟨rfl, by decide⟩).1 (by decide)
  · exact ((hpair (encode addN16 [⟨asSequence, [65001, asTrans]⟩, ⟨asSet, [1, 5, 5]⟩])
      (encode ibufAddN32 [⟨asSequence, [65001, asTrans]⟩, ⟨asSet, [1, 5, 5]⟩]) true
      (by decide) (by decide)).2 [⟨asSequence, [65001, asTrans]⟩, ⟨asSet, [1, 5, 5]⟩]
      ⟨rfl, by decide⟩).2 (by decide) _ rfl

/-- AS 70000, sent to an OLD speaker and relayed as it is. -/
theorem receive_bigPath :
    ¬∀ segs : List Seg, aspathVerify (encode ibufAddN32 segs) true true = none →
      receive (relay [] segs).1 (relay [] segs).2 = some (encode ibufAddN32 (prepend [] segs)) := by
  intro h
  have hbig := h [⟨asSequence, [70000]⟩] (by decide)
  exact absurd hbig (by decide)

end Bgpd.Rde.As4
