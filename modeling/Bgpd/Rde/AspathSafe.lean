import Bgpd.Lib.Ends
import Bgpd.Rde.AspathWalk

/-!
# Verified AS Paths Are Safe to Walk

What `aspath_verify` accepts, also with a soft error, are segments of one to 255 ASes each. Every
walk over the bytes of such segments goes from one segment to the next and ends at the end of the
path, so that no read is beyond it.

## Main results

- `Accepted.exists_segs`: an accepted path is a list of segments
- `Valid.aspathExtract_encode`: what is read of a segment
- `segLoop_ends`, `asLoop_ends`: loops over segments and over their ASes
-/

namespace Bgpd.Rde.AspathWalk

open Nlri As4
open Lib (Ends)

variable {σ ρ α β : Type} {s : Seg} {segs rest : List Seg} {path buf : List UInt8} {n cnt : ℕ}

/-! ## What is accepted -/

/-- A segment of a path that is accepted, also with a soft error. -/
structure Valid (s : Seg) : Prop where
  type : s.type = asSet ∨ s.type = asSequence ∨ s.type = asConfedSequence ∨ s.type = asConfedSet
  pos : 0 < s.ases.length
  le : s.ases.length ≤ 255

/-- `aspath_verify` returns 0 or `AS_ERR_SOFT`. -/
def Passed (error : Option AsErr) : Prop := error = none ∨ error = some .soft

/-- A path as it is stored: of four-byte ASes, or of two-byte ones and inflated. -/
inductive Accepted (path : List UInt8) : Prop where
  | four (permitSet : Bool) (h : Passed (aspathVerify path true permitSet))
  | two (buf : List UInt8) (permitSet : Bool) (h : Passed (aspathVerify buf false permitSet))
      (hout : aspathInflate buf = some path)

/-- The number of ASes of a path. -/
def asTotal (segs : List Seg) : ℕ := (segs.map fun s => s.ases.length).sum

/-- A path that passes starts with a full, valid segment and goes on with one that passes. -/
theorem passed_cons {as4byte permitSet : Bool} {error : Option AsErr} {t l : UInt8}
    (h : Passed (verifyLoop as4byte permitSet (n + 1) (t :: l :: buf) error cnt)) :
    l ≠ 0 ∧ ∃ ases rest, getAses (if as4byte then ibufGetN32 else ibufGetN16) l.toNat buf =
          some (ases, rest) ∧ Valid ⟨t, ases⟩ ∧ ases.length = l.toNat ∧
        ∃ error', Passed (verifyLoop as4byte permitSet n rest error' (cnt + l.toNat)) := by
  simp only [verifyLoop] at h
  generalize (if as4byte = true then ibufGetN32 else ibufGetN16) = get at h ⊢
  by_cases hl : l = 0
  · rw [if_pos hl] at h
    rcases h with h | h <;> cases h
  rw [if_neg hl] at h
  by_cases htype : t ≠ asSet ∧ t ≠ asSequence ∧ t ≠ asConfedSequence ∧ t ≠ asConfedSet
  · rw [if_pos htype] at h
    rcases h with h | h <;> cases h
  rw [if_neg htype] at h
  cases hget : getAses get l.toNat buf with
  | none =>
    rw [hget] at h
    rcases h with h | h <;> cases h
  | some x =>
    obtain ⟨ases, rest⟩ := x
    simp only [hget] at h
    have hlen := length_of_getAses hget
    have hlt := l.toNat_lt
    have hpos : l.toNat ≠ 0 := fun hzero => hl (UInt8.toNat_inj.1 hzero)
    have hvalid : Valid ⟨t, ases⟩ := by
      refine ⟨by tauto, ?_, ?_⟩
      · show 0 < ases.length
        omega
      · show ases.length ≤ 255
        omega
    exact ⟨hl, ases, rest, rfl, hvalid, hlen, _, h⟩

theorem asTotal_cons (s : Seg) (segs : List Seg) :
    asTotal (s :: segs) = s.ases.length + asTotal segs := by
  simp [asTotal]

theorem passed_nil {as4byte permitSet : Bool} {error : Option AsErr}
    (h : Passed (verifyLoop as4byte permitSet n [] error cnt)) : cnt ≤ maxAspathCount := by
  cases n <;>
    rw [verifyLoop] at h <;> split_ifs at h with hmax
  · rcases h with h | h <;> cases h
  · exact Nat.not_lt.mp hmax
  · rcases h with h | h <;> cases h
  · exact Nat.not_lt.mp hmax

/-- A four-byte path that is accepted is a list of segments. -/
theorem segs_of_verifyLoop {permitSet : Bool} {error : Option AsErr}
    (h : Passed (verifyLoop true permitSet n buf error cnt)) :
    ∃ segs, buf = encode ibufAddN32 segs ∧ (∀ s ∈ segs, Valid s) ∧
      cnt + asTotal segs ≤ maxAspathCount := by
  induction n generalizing buf error cnt with
  | zero =>
    cases buf with
    | nil => exact ⟨[], rfl, by simp, passed_nil h⟩
    | cons b buf => rcases h with h | h <;> simp [verifyLoop] at h
  | succ n ih =>
    rcases buf with - | ⟨t, - | ⟨l, buf⟩⟩
    · exact ⟨[], rfl, by simp, passed_nil h⟩
    · rcases h with h | h <;> simp [verifyLoop] at h
    · obtain ⟨hl, ases, rest, hget, hvalid, hlen, error', hrest⟩ := passed_cons h
      obtain ⟨rfl, -⟩ := eq_append_of_getAses hget
      obtain ⟨segs, rfl, hok, htotal⟩ := ih hrest
      refine ⟨⟨t, ases⟩ :: segs, ?_, List.forall_mem_cons.2 ⟨hvalid, hok⟩, ?_⟩
      · rw [encode_cons, ofNat_length_eq hlen]
      · rw [asTotal_cons]
        dsimp only
        omega

/-- A two-byte path that is accepted is inflated, and the result is a list of segments. -/
theorem segs_of_inflateLoop {permitSet : Bool} {error : Option AsErr}
    (h : Passed (verifyLoop false permitSet n buf error cnt)) :
    ∃ segs, inflateLoop n buf = some (encode ibufAddN32 segs) ∧ (∀ s ∈ segs, Valid s) ∧
      cnt + asTotal segs ≤ maxAspathCount := by
  induction n generalizing buf error cnt with
  | zero =>
    cases buf with
    | nil => exact ⟨[], rfl, by simp, passed_nil h⟩
    | cons b buf => rcases h with h | h <;> simp [verifyLoop] at h
  | succ n ih =>
    rcases buf with - | ⟨t, - | ⟨l, buf⟩⟩
    · exact ⟨[], rfl, by simp, passed_nil h⟩
    · rcases h with h | h <;> simp [verifyLoop] at h
    · obtain ⟨hl, ases, rest, hget, hvalid, hlen, error', hrest⟩ := passed_cons h
      obtain ⟨segs, hout, hok, htotal⟩ := ih hrest
      simp only [Bool.false_eq_true, if_false] at hget
      refine ⟨⟨t, ases⟩ :: segs, ?_, List.forall_mem_cons.2 ⟨hvalid, hok⟩, ?_⟩
      · simp only [inflateLoop, bind, Option.bind_none, if_neg hl, hget, Option.bind_some,
          hout, pure]
        rw [encode_cons, ofNat_length_eq hlen]
      · rw [asTotal_cons]
        dsimp only
        omega

theorem inflate_of_passed {permitSet : Bool} (h : Passed (aspathVerify buf false permitSet)) :
    ∃ segs, aspathInflate buf = some (encode ibufAddN32 segs) ∧ (∀ s ∈ segs, Valid s) ∧
      asTotal segs ≤ maxAspathCount := by
  unfold aspathVerify at h
  split_ifs at h
  · rcases h with h | h <;> cases h
  · unfold aspathInflate
    simpa using segs_of_inflateLoop h

/-- An accepted path is a list of segments. -/
theorem Accepted.exists_segs (h : Accepted path) :
    ∃ segs, path = encode ibufAddN32 segs ∧ (∀ s ∈ segs, Valid s) ∧
      asTotal segs ≤ maxAspathCount := by
  cases h with
  | four permitSet h =>
    unfold aspathVerify at h
    split_ifs at h
    · rcases h with h | h <;> cases h
    · simpa using segs_of_verifyLoop h
  | two buf permitSet h hout =>
    obtain ⟨segs, hsegs, hok, htotal⟩ := inflate_of_passed h
    rw [hout] at hsegs
    exact ⟨segs, Option.some.inj hsegs, hok, htotal⟩

/-! ## Reads -/

theorem Valid.toNat_len (h : Valid s) : (UInt8.ofNat s.ases.length).toNat = s.ases.length :=
  toNat_ofNat_of_le h.le

theorem Valid.segSize_eq (h : Valid s) :
    segSize (UInt8.ofNat s.ases.length) = 2 + 4 * s.ases.length := by
  rw [segSize, h.toNat_len]

theorem readByte_encode_type (s : Seg) (rest : List Seg) :
    readByte (encode ibufAddN32 (s :: rest)) 0 = .ok s.type := rfl

theorem readByte_encode_len (s : Seg) (rest : List Seg) :
    readByte (encode ibufAddN32 (s :: rest)) 1 = .ok (UInt8.ofNat s.ases.length) := rfl

theorem drop_flatMap_ibufAddN32 (ases : List UInt32) (i : ℕ) :
    (ases.flatMap ibufAddN32).drop (4 * i) = (ases.drop i).flatMap ibufAddN32 := by
  induction i generalizing ases with
  | zero => rfl
  | succ i ih =>
    cases ases with
    | nil => simp
    | cons as ases =>
      have hsplit : 4 * (i + 1) = (ibufAddN32 as).length + 4 * i := by
        show 4 * (i + 1) = 4 + 4 * i
        omega
      rw [List.flatMap_cons, List.drop_succ_cons, hsplit, List.drop_length_add_append, ih]

/-- The next segment. -/
theorem Valid.drop_encode (h : Valid s) (rest : List Seg) :
    (encode ibufAddN32 (s :: rest)).drop (segSize (UInt8.ofNat s.ases.length)) =
      encode ibufAddN32 rest := by
  rw [h.segSize_eq, encode_cons, Nat.add_comm, List.drop_succ_cons, List.drop_succ_cons,
    ← length_flatMap_ibufAddN32, List.drop_left]

/-- What is read of a segment is one of its ASes. -/
theorem Valid.aspathExtract_encode (h : Valid s) {i : ℕ} (hi : i < s.ases.length)
    (rest : List Seg) :
    aspathExtract (encode ibufAddN32 (s :: rest)) i = .ok s.ases[i] := by
  have hpos : ¬((i : ℤ) < 0 ∨ (s.ases.length : ℤ) ≤ i) := by omega
  have hget : ibufGetN32 ((encode ibufAddN32 (s :: rest)).drop (2 + 4 * i)) =
      some (s.ases[i], (s.ases.drop (i + 1)).flatMap ibufAddN32 ++ encode ibufAddN32 rest) := by
    have hle : 4 * i ≤ (s.ases.flatMap ibufAddN32).length := by
      rw [length_flatMap_ibufAddN32]
      omega
    rw [encode_cons, Nat.add_comm, List.drop_succ_cons, List.drop_succ_cons,
      List.drop_append_of_le_length hle, drop_flatMap_ibufAddN32, List.drop_eq_getElem_cons hi,
      List.flatMap_cons, List.append_assoc, ibufGetN32_ibufAddN32]
  unfold aspathExtract
  rw [readByte_encode_len]
  simp only [bind, Except.bind, h.toNat_len, if_neg hpos, Int.toNat_natCast, hget, pure,
    Except.pure]

/-- The last AS of a segment. -/
theorem Valid.aspathExtract_last (h : Valid s) (rest : List Seg) :
    ∃ as, s.ases.getLast? = some as ∧ aspathExtract (encode ibufAddN32 (s :: rest))
      ((UInt8.ofNat s.ases.length).toNat - 1) = .ok as := by
  have hpos := h.pos
  have hlast : (s.ases.length : ℤ) - 1 = ((s.ases.length - 1 : ℕ) : ℤ) := by omega
  refine ⟨s.ases[s.ases.length - 1], ?_, ?_⟩
  · rw [List.getLast?_eq_getElem?]
    exact List.getElem?_eq_getElem _
  · rw [h.toNat_len, hlast]
    exact h.aspathExtract_encode (by omega) rest

theorem Valid.six_le_length (h : Valid s) (rest : List Seg) :
    6 ≤ (encode ibufAddN32 (s :: rest)).length := by
  have hpos := h.pos
  rw [length_encode_cons]
  omega

/-- The last segment is the one that goes to the end of the path. -/
theorem Valid.length_eq_segSize_iff (h : Valid s) (hrest : ∀ s ∈ rest, Valid s) :
    (encode ibufAddN32 (s :: rest)).length = segSize (UInt8.ofNat s.ases.length) ↔ rest = [] := by
  rw [h.segSize_eq, length_encode_cons]
  cases rest with
  | nil => simp
  | cons s' rest =>
    have hsix := (hrest s' List.mem_cons_self).six_le_length rest
    constructor
    · intro hlen
      omega
    · exact fun hnil => absurd hnil (List.cons_ne_nil _ _)

/-! ## Loops -/

/-- What holds of the state and of what is returned when the body of a loop ends. -/
def Step.Holds (P : σ → Prop) (Q : ρ → Prop) : Step σ ρ → Prop
  | .next s => P s
  | .skip s => P s
  | .done r => Q r

/-- A loop over the segments keeps an invariant about the state and the segments that are left. -/
theorem segLoop_ends {body : σ → List UInt8 → UInt8 → UInt8 → Walk (Step σ ρ)} {least : ℕ}
    (hleast : 0 < least) (hsix : least ≤ 6) {I : σ → List Seg → Prop} {Q : ρ → Prop}
    (hbody : ∀ st s rest, Valid s → (∀ s ∈ rest, Valid s) → I st (s :: rest) →
      Ends (body st (encode ibufAddN32 (s :: rest)) s.type (UInt8.ofNat s.ases.length))
        (Step.Holds (I · rest) Q))
    (hok : ∀ s ∈ segs, Valid s) {st : σ} (h : I st segs) :
    Ends (segLoop body least st (encode ibufAddN32 segs)) (Sum.elim (I · []) Q) := by
  induction segs generalizing st with
  | nil =>
    rw [segLoop, if_pos (show (encode ibufAddN32 []).length < least from hleast)]
    exact Lib.ends_pure_iff.2 h
  | cons s rest ih =>
    obtain ⟨hs, hrest⟩ := List.forall_mem_cons.1 hok
    have hlong := hs.six_le_length rest
    have hfits : ¬(encode ibufAddN32 (s :: rest)).length < segSize (UInt8.ofNat s.ases.length) := by
      rw [hs.segSize_eq, length_encode_cons]
      omega
    rw [segLoop, if_neg (by omega), readByte_encode_type, readByte_encode_len]
    refine (hbody st s rest hs hrest h).bind fun step hstep => ?_
    cases step with
    | next st =>
      dsimp only
      rw [dif_neg hfits, hs.drop_encode]
      exact ih hrest hstep
    | skip st =>
      dsimp only
      rw [dif_neg hfits, hs.drop_encode]
      exact ih hrest hstep
    | done r => exact Lib.ends_pure_iff.2 hstep

/-- A loop over the ASes of a segment keeps an invariant about the state and the number of the
    AS. -/
theorem asLoop_ends {body : σ → ℕ → Walk (σ ⊕ ρ)} {I : σ → ℕ → Prop} {Q : ρ → Prop} {i n : ℕ}
    (hbody : ∀ st j, i ≤ j → j < i + n → I st j → Ends (body st j) (Sum.elim (I · (j + 1)) Q))
    {st : σ} (h : I st i) : Ends (asLoop body i n st) (Sum.elim (I · (i + n)) Q) := by
  induction n generalizing i st with
  | zero => exact Lib.ends_pure_iff.2 h
  | succ n ih =>
    rw [asLoop]
    refine (hbody st i le_rfl (by omega) h).bind fun r hr => ?_
    cases r with
    | inl st =>
      have hnext := ih (fun st j hij hj => hbody st j (by omega) (by omega)) hr
      rwa [show i + 1 + n = i + (n + 1) by omega] at hnext
    | inr r => exact Lib.ends_pure_iff.2 hr

end Bgpd.Rde.AspathWalk
