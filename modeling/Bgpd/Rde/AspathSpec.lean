import Bgpd.Rde.AspathSafe

/-!
# What the Walks over an AS Path Return

A lemma for each function that walks over the bytes of a path: on the bytes of valid segments it
comes to its end, and what it returns is said in terms of the segments.

## Main results

- `aspathCount_encode`, `aspathExtractOrigin_encode`: what is stored with a path
- `aspathPrepend_encode`, `aspathOverride_encode`, `aspathDeflate_encode`: new paths
- `aspathAsprint_encode`: the size of a path as text
- `verified_safe`: all walks over a path that is accepted
-/

namespace Bgpd.Rde.AspathWalk

open Nlri As4
open Lib (Ends)

variable {σ ρ α β : Type} {s : Seg} {segs rest : List Seg} {path buf : List UInt8} {n cnt : ℕ}

/-! ## Loops without an invariant -/

/-- The walk comes to its end. -/
def Safe (x : Walk α) : Prop := Ends x fun _ => True

theorem safe_ok (a : α) : Safe (.ok a : Walk α) := ⟨a, rfl, trivial⟩

theorem safe_pure (a : α) : Safe (pure a : Walk α) := ⟨a, rfl, trivial⟩

theorem Safe.bind {x : Walk α} {f : α → Walk β} (hx : Safe x) (hf : ∀ a, Safe (f a)) :
    Safe (x >>= f) :=
  Ends.bind hx fun a _ => hf a

theorem Safe.eq_ok {x : Walk α} (h : Safe x) : ∃ a, x = .ok a := by
  obtain ⟨a, ha, -⟩ := h
  exact ⟨a, ha⟩

theorem segLoop_safe {body : σ → List UInt8 → UInt8 → UInt8 → Walk (Step σ ρ)} {least : ℕ}
    (hleast : 0 < least) (hsix : least ≤ 6)
    (hbody : ∀ st s rest, Valid s → (∀ s ∈ rest, Valid s) →
      Safe (body st (encode ibufAddN32 (s :: rest)) s.type (UInt8.ofNat s.ases.length)))
    (hok : ∀ s ∈ segs, Valid s) (st : σ) :
    Safe (segLoop body least st (encode ibufAddN32 segs)) := by
  have hloop : Ends (segLoop body least st (encode ibufAddN32 segs))
      (Sum.elim (fun _ => True) fun _ => True) :=
    segLoop_ends (I := fun _ _ => True) hleast hsix
      (fun st s rest hs hrest _ => (hbody st s rest hs hrest).mono fun step _ => by
        cases step <;> trivial) hok trivial
  exact hloop.mono fun _ _ => trivial

/-- A loop over the ASes of a segment, where the body is safe if the AS can be read. -/
theorem asLoop_safe {body : σ → ℕ → Walk (σ ⊕ ρ)} (hs : Valid s)
    (hbody : ∀ st j, j < s.ases.length → Safe (body st j)) (st : σ) :
    Safe (asLoop body 0 (UInt8.ofNat s.ases.length).toNat st) := by
  have hloop : Ends (asLoop body 0 (UInt8.ofNat s.ases.length).toNat st)
      (Sum.elim (fun _ => True) fun _ => True) :=
    asLoop_ends (I := fun _ _ => True) (fun st j _ hj _ => by
      rw [hs.toNat_len, Nat.zero_add] at hj
      exact (hbody st j hj).mono fun r _ => by cases r <;> trivial) trivial
  exact hloop.mono fun _ _ => trivial

theorem Valid.safe_extract (h : Valid s) {i : ℕ} (hi : i < s.ases.length) (rest : List Seg) :
    Safe (aspathExtract (encode ibufAddN32 (s :: rest)) i) := by
  rw [h.aspathExtract_encode hi]
  exact safe_ok _

theorem Valid.safe_last (h : Valid s) (rest : List Seg) :
    Safe (aspathExtract (encode ibufAddN32 (s :: rest))
      ((UInt8.ofNat s.ases.length).toNat - 1)) := by
  obtain ⟨as, -, has⟩ := h.aspathExtract_last rest
  rw [has]
  exact safe_ok as

/-! ## What is read of a path -/

theorem pathCount_cons (s : Seg) (segs : List Seg) :
    pathCount (s :: segs) = s.weight + pathCount segs := by
  simp [pathCount]

/-- `aspath_count` is the path length of RFC 4271, cut to 16 bits. -/
theorem aspathCount_encode (hok : ∀ s ∈ segs, Valid s) :
    aspathCount (encode ibufAddN32 segs) = .ok (pathCount segs % 2 ^ 16) := by
  have hloop : Ends (segLoop (ρ := ℕ) (fun cnt _ segType segLen =>
      return .next ((cnt + if segType = asSet then 1 else segLen.toNat) % 2 ^ 16)) 1 0
      (encode ibufAddN32 segs)) (Sum.elim (fun cnt =>
        (cnt + pathCount []) % 2 ^ 16 = pathCount segs % 2 ^ 16 ∧ cnt < 2 ^ 16) fun _ =>
          False) := by
    apply segLoop_ends (I := fun cnt rest =>
      (cnt + pathCount rest) % 2 ^ 16 = pathCount segs % 2 ^ 16 ∧ cnt < 2 ^ 16) Nat.one_pos
      (by omega) _ hok
    · exact ⟨by rw [Nat.zero_add], by omega⟩
    · intro cnt s rest hs _ h
      apply Lib.ends_pure_iff.2
      obtain ⟨hcnt, -⟩ := h
      have hweight : (if s.type = asSet then 1 else (UInt8.ofNat s.ases.length).toNat) =
          s.weight := by
        rw [hs.toNat_len]
        rfl
      rw [hweight]
      rw [pathCount_cons] at hcnt
      refine ⟨?_, Nat.mod_lt _ (by omega)⟩
      omega
  obtain ⟨r, hr, hI⟩ := hloop
  unfold aspathCount
  rw [hr]
  cases r with
  | inl cnt =>
    obtain ⟨hcnt, hlt⟩ := hI
    have hnil : pathCount [] = 0 := rfl
    rw [hnil, Nat.add_zero, Nat.mod_eq_of_lt hlt] at hcnt
    rw [← hcnt]
    rfl
  | inr r => exact hI.elim

/-- The origin AS that is stored with a path: the last AS of the last segment if this is a
    sequence, the own AS if the path is empty, and `AS_NONE` otherwise. -/
def storedOrigin (localAs : UInt32) (segs : List Seg) : UInt32 :=
  match segs.getLast? with
  | none => localAs
  | some s => if s.type = asSequence then s.ases.getLast?.getD 0 else 0

/-- The origin AS is only set in the last segment. -/
def OriginInv (localAs : UInt32) (segs : List Seg) (as : UInt32) (rest : List Seg) : Prop :=
  if rest = [] then as = storedOrigin localAs segs else as = 0 ∧ rest.getLast? = segs.getLast?

/-- `aspath_extract_origin` decides the origin by the last segment alone. -/
theorem aspathExtractOrigin_encode (hok : ∀ s ∈ segs, Valid s) (localAs : UInt32) :
    aspathExtractOrigin (encode ibufAddN32 segs) localAs = .ok (storedOrigin localAs segs) := by
  unfold aspathExtractOrigin
  cases segs with
  | nil => rfl
  | cons s₀ segs₀ =>
    rw [if_neg (by rw [encode_cons]; exact List.cons_ne_nil _ _)]
    -- the loop looks for the last segment, and remembers its last ASN
    have hloop : Ends (segLoop (ρ := UInt32) (fun as seg segType segLen => do
        if seg.length = segSize segLen ∧ segType = asSequence then
          let as ← aspathExtract seg (segLen.toNat - 1)
          return .next as
        else return .next as) 1 0 (encode ibufAddN32 (s₀ :: segs₀)))
        (Sum.elim (OriginInv localAs (s₀ :: segs₀) · []) fun _ => False) := by
      apply segLoop_ends (I := OriginInv localAs (s₀ :: segs₀)) Nat.one_pos (by omega) _ hok
      · rw [OriginInv, if_neg (List.cons_ne_nil _ _)]
        exact ⟨rfl, rfl⟩
      intro as s rest hs hrest h
      rw [OriginInv, if_neg (List.cons_ne_nil _ _)] at h
      obtain ⟨rfl, hlast⟩ := h
      have hfinal := hs.length_eq_segSize_iff hrest
      apply Ends.ite
      -- this is the last segment, and a sequence
      · rintro ⟨hlen, htype⟩
        obtain ⟨as, has, hextract⟩ := hs.aspathExtract_last rest
        obtain rfl := hfinal.1 hlen
        rw [hextract]
        refine Lib.ends_pure_iff.2 ?_
        dsimp only [Step.Holds, OriginInv]
        rw [if_pos rfl]
        unfold storedOrigin
        rw [← hlast]
        simp [htype, has]
      -- not the last segment, or not a sequence: the origin stays as it is
      · intro hnot
        refine Lib.ends_pure_iff.2 ?_
        dsimp only [Step.Holds, OriginInv]
        split_ifs with hnil
        · subst hnil
          have htype : s.type ≠ asSequence := fun htype => hnot ⟨hfinal.2 rfl, htype⟩
          unfold storedOrigin
          rw [← hlast]
          simp [htype]
        · rw [List.getLast?_cons_of_ne_nil hnil] at hlast
          exact ⟨rfl, hlast⟩
    obtain ⟨r, hr, hI⟩ := hloop
    rw [hr]
    cases r with
    | inl as =>
      rw [Sum.elim_inl, OriginInv, if_pos rfl] at hI
      rw [hI]
      rfl
    | inr r => exact hI.elim

theorem aspathNeighbor_safe (hok : ∀ s ∈ segs, Valid s) (localAs : UInt32) :
    Safe (aspathNeighbor (encode ibufAddN32 segs) localAs) := by
  unfold aspathNeighbor
  cases segs with
  | nil => exact safe_ok localAs
  | cons s rest =>
    have hs := hok s List.mem_cons_self
    rw [if_neg (by rw [encode_cons]; exact List.cons_ne_nil _ _), readByte_encode_type]
    refine Ends.ite (fun _ => safe_ok localAs) fun _ => hs.safe_extract hs.pos rest

theorem aspathLoopfree_safe (hok : ∀ s ∈ segs, Valid s) (myAS : UInt32) :
    Safe (aspathLoopfree (encode ibufAddN32 segs) myAS) := by
  apply Safe.bind _ fun _ => safe_pure _
  apply segLoop_safe Nat.one_pos (by omega) _ hok
  intro st s rest hs hrest
  apply Safe.bind _ fun _ => safe_pure _
  apply asLoop_safe hs
  intro st j hj
  exact (hs.safe_extract hj rest).bind fun _ => safe_pure _

/-- Matching never reads outside a valid path. -/
theorem aspathMatch_safe (hok : ∀ s ∈ segs, Valid s) (localAs : UInt32) (f : Filter.FilterAs)
    (neighas : ℕ) : Safe (aspathMatch (encode ibufAddN32 segs) localAs f neighas) := by
  unfold aspathMatch
  split
  · exact safe_pure _
  · exact (aspathNeighbor_safe hok localAs).bind fun _ => safe_pure _
  · apply Safe.bind _ fun _ => safe_pure _
    apply segLoop_safe (by omega) (by omega) _ hok
    intro st s rest hs hrest
    have hfinal : ∀ as : UInt32, Safe (if (encode ibufAddN32 (s :: rest)).length ≠
        segSize (UInt8.ofNat s.ases.length) then (pure (Step.skip as) : Walk (Step UInt32 Bool))
        else pure (Step.done (Filter.asCompare f as.toNat neighas))) :=
      fun as => Ends.ite (fun _ => safe_pure _) fun _ => safe_pure _
    apply Ends.ite
    · exact fun _ => (hs.safe_last rest).bind hfinal
    · exact fun _ => hfinal st
  all_goals
    apply Safe.bind _ fun _ => safe_pure _
    apply segLoop_safe (by omega) (by omega) _ hok
    intro st s rest hs hrest
    apply Safe.bind _ fun _ => safe_pure _
    apply asLoop_safe hs
    intro st j hj
    apply Ends.ite fun _ => safe_pure _
    intro _
    exact (hs.safe_extract hj rest).bind fun _ => safe_pure _

theorem aspathLenmatch_safe (hok : ∀ s ∈ segs, Valid s) (type : Filter.AslenSpec) (aslen : ℕ) :
    Safe (aspathLenmatch (encode ibufAddN32 segs) type aslen) := by
  cases type with
  | max =>
    unfold aspathLenmatch
    rw [aspathCount_encode hok]
    exact safe_ok _
  | seq =>
    apply Safe.bind _ fun _ => safe_pure _
    apply segLoop_safe Nat.one_pos (by omega) _ hok
    intro st s rest hs hrest
    apply Safe.bind _ fun _ => safe_pure _
    apply asLoop_safe hs
    intro st j hj
    exact (hs.safe_extract hj rest).bind fun _ => safe_pure _

theorem aspaCheckAspath_safe (hok : ∀ s ∈ segs, Valid s) (ra : Rpki.RdeAspa) :
    Safe (aspaCheckAspath (encode ibufAddN32 segs) ra) := by
  apply Safe.bind _ fun _ => safe_pure _
  apply segLoop_safe Nat.one_pos (by omega) _ hok
  intro st s rest hs hrest
  apply Ends.ite fun _ => safe_pure _
  intro _
  apply Safe.bind
  · apply asLoop_safe hs
    intro st j hj
    exact (hs.safe_extract hj rest).bind fun _ => safe_pure _
  · rintro (st | r)
    · exact safe_pure _
    · exact safe_pure _

/-! ## Loops that rewrite a path -/

/-- A loop that does something with each AS of a segment. -/
theorem asLoop_foldl (step : σ → UInt32 → σ) (hs : Valid s) (rest : List Seg) (st : σ) :
    asLoop (ρ := ρ) (fun st i => do
      let as ← aspathExtract (encode ibufAddN32 (s :: rest)) i
      return .inl (step st as)) 0 (UInt8.ofNat s.ases.length).toNat st =
      .ok (.inl (s.ases.foldl step st)) := by
  have hloop : Ends (asLoop (ρ := ρ) (fun st i => do
      let as ← aspathExtract (encode ibufAddN32 (s :: rest)) i
      return .inl (step st as)) 0 (UInt8.ofNat s.ases.length).toNat st)
      (Sum.elim (· = (s.ases.take (0 + (UInt8.ofNat s.ases.length).toNat)).foldl step st)
        fun _ => False) := by
    apply asLoop_ends (I := fun st' j => st' = (s.ases.take j).foldl step st) _ rfl
    intro st' j _ hj h
    rw [hs.toNat_len, Nat.zero_add] at hj
    rw [hs.aspathExtract_encode hj]
    apply Lib.ends_pure_iff.2
    show step st' s.ases[j] = (s.ases.take (j + 1)).foldl step st
    rw [h, ← List.take_concat_get' s.ases j hj, List.foldl_append]
    rfl
  obtain ⟨r, hr, hI⟩ := hloop
  rw [hr]
  cases r with
  | inl st' =>
    rw [Sum.elim_inl, Nat.zero_add, hs.toNat_len, List.take_length] at hI
    rw [hI]
  | inr r => exact hI.elim

/-- A loop that does something with each segment. -/
theorem segLoop_foldl {body : σ → List UInt8 → UInt8 → UInt8 → Walk (Step σ ρ)} {g : σ → Seg → σ}
    (hbody : ∀ st s rest, Valid s →
      body st (encode ibufAddN32 (s :: rest)) s.type (UInt8.ofNat s.ases.length) =
          .ok (.next (g st s)) ∨
        body st (encode ibufAddN32 (s :: rest)) s.type (UInt8.ofNat s.ases.length) =
          .ok (.skip (g st s)))
    (hok : ∀ s ∈ segs, Valid s) (st : σ) :
    segLoop body 1 st (encode ibufAddN32 segs) = .ok (.inl (segs.foldl g st)) := by
  have hloop : Ends (segLoop body 1 st (encode ibufAddN32 segs))
      (Sum.elim (fun st' => ([] : List Seg).foldl g st' = segs.foldl g st) fun _ => False) := by
    apply segLoop_ends (I := fun st' rest => rest.foldl g st' = segs.foldl g st) Nat.one_pos
      (by omega) _ hok rfl
    intro st' s rest hs _ h
    rcases hbody st' s rest hs with heq | heq
    · rw [heq]
      exact Lib.ends_ok_iff.2 h
    · rw [heq]
      exact Lib.ends_ok_iff.2 h
  obtain ⟨r, hr, hI⟩ := hloop
  rw [hr]
  cases r with
  | inl st' =>
    have hst : st' = segs.foldl g st := hI
    rw [hst]
  | inr r => exact hI.elim

theorem written_of_le {size : ℕ} {out : List UInt8} (h : out.length ≤ size) :
    written size out = .ok out := by
  rw [written, if_neg (Nat.not_lt.2 h)]
  rfl

/-! ## AS numbers that are replaced -/

/-- Where an AS is replaced by the own one. -/
def overrideSeg (neighborAs localAs : UInt32) (s : Seg) : Seg :=
  ⟨s.type, s.ases.map fun as => if as = neighborAs then localAs else as⟩

theorem encode_eq_flatMap (add : UInt32 → List UInt8) (segs : List Seg) :
    encode add segs =
      segs.flatMap fun s => [s.type, UInt8.ofNat s.ases.length] ++ s.ases.flatMap add := rfl

theorem length_encode_override (neighborAs localAs : UInt32) (segs : List Seg) :
    (encode ibufAddN32 (segs.map (overrideSeg neighborAs localAs))).length =
      (encode ibufAddN32 segs).length := by
  induction segs with
  | nil => rfl
  | cons s segs ih =>
    rw [List.map_cons, length_encode_cons, length_encode_cons, ih]
    simp [overrideSeg]

/-- The neighbor's AS is replaced everywhere and the length stays. -/
theorem aspathOverride_encode (hok : ∀ s ∈ segs, Valid s) (neighborAs localAs : UInt32) :
    aspathOverride (encode ibufAddN32 segs) neighborAs localAs =
      .ok (encode ibufAddN32 (segs.map (overrideSeg neighborAs localAs)),
        (encode ibufAddN32 segs).length) := by
  unfold aspathOverride
  cases segs with
  | nil => rfl
  | cons s₀ segs₀ =>
    rw [if_neg (by rw [encode_cons]; exact List.cons_ne_nil _ _),
      segLoop_foldl (g := fun out s => out ++ ([s.type, UInt8.ofNat s.ases.length] ++
        (s.ases.map fun as => if as = neighborAs then localAs else as).flatMap ibufAddN32))
        (fun out s rest hs => by
          left
          rw [asLoop_foldl (fun out as =>
            out ++ ibufAddN32 (if as = neighborAs then localAs else as)) hs rest]
          rw [List.foldl_append_eq_append, List.append_assoc, List.flatMap_map]
          rfl) hok]
    have hout : encode ibufAddN32 ((s₀ :: segs₀).map (overrideSeg neighborAs localAs)) =
        (s₀ :: segs₀).foldl (fun out s => out ++ ([s.type, UInt8.ofNat s.ases.length] ++
          (s.ases.map fun as => if as = neighborAs then localAs else as).flatMap ibufAddN32))
            [] := by
      rw [List.foldl_append_eq_append, List.nil_append, encode_eq_flatMap, List.flatMap_map]
      simp [overrideSeg, List.flatMap]
    have hfits := written_of_le (length_encode_override neighborAs localAs (s₀ :: segs₀)).le
    rw [← hout]
    simp only [bind, Except.bind, finish, id, hfits, pure, Except.pure]

/-! ## Two-byte AS numbers -/

theorem foldl_deflate (ases : List UInt32) (out : List UInt8) (flagnew : Bool) :
    ases.foldl (fun s as => if ushrtMax < as then (s.1 ++ addN16 asTrans, true)
        else (s.1 ++ addN16 as, s.2)) (out, flagnew) =
      (out ++ (ases.map fun as => if ushrtMax < as then asTrans else as).flatMap addN16,
        flagnew || ases.any (ushrtMax < ·)) := by
  induction ases generalizing out flagnew with
  | nil => simp
  | cons as ases ih =>
    rw [List.foldl_cons]
    split_ifs with has
    · rw [ih]
      simp [has]
    · rw [ih]
      simp [has]

theorem foldl_deflateSeg (segs : List Seg) (out : List UInt8) (flagnew : Bool) :
    segs.foldl (fun (st : List UInt8 × Bool) s =>
        (st.1 ++ ([s.type, UInt8.ofNat s.ases.length] ++
          (s.ases.map fun as => if ushrtMax < as then asTrans else as).flatMap addN16),
          st.2 || s.ases.any (ushrtMax < ·))) (out, flagnew) =
      (out ++ encode addN16 (segs.map deflateSeg),
        flagnew || segs.any fun s => s.ases.any (ushrtMax < ·)) := by
  induction segs generalizing out flagnew with
  | nil => simp
  | cons s segs ih =>
    rw [List.foldl_cons, ih, List.map_cons, encode_cons, List.any_cons]
    simp [deflateSeg, Bool.or_assoc]

theorem length_flatMap_addN16 (ases : List UInt32) :
    (ases.flatMap addN16).length = 2 * ases.length := by
  induction ases with
  | nil => rfl
  | cons as ases ih =>
    rw [List.flatMap_cons, List.length_append, ih, List.length_cons]
    show 2 + 2 * ases.length = 2 * (ases.length + 1)
    omega

/-- The length that `aspath_deflate` computes first. -/
theorem foldl_nlen (segs : List Seg) (nlen : ℕ) :
    segs.foldl (fun nlen s => (nlen + 2 + 2 * s.ases.length) % 2 ^ 16) nlen % 2 ^ 16 =
      (nlen + (encode addN16 (segs.map deflateSeg)).length) % 2 ^ 16 := by
  induction segs generalizing nlen with
  | nil => rfl
  | cons s segs ih =>
    have hlen : (encode addN16 ((s :: segs).map deflateSeg)).length =
        2 + 2 * s.ases.length + (encode addN16 (segs.map deflateSeg)).length := by
      rw [List.map_cons, encode_cons, List.length_cons, List.length_cons, List.length_append,
        length_flatMap_addN16]
      simp only [deflateSeg, List.length_map]
      omega
    rw [List.foldl_cons, ih, hlen]
    omega

/-- Deflating replaces each AS beyond 16 bits by AS_TRANS and says if there was one. -/
theorem aspathDeflate_walk (hok : ∀ s ∈ segs, Valid s)
    (hlen : (encode addN16 (segs.map deflateSeg)).length < 2 ^ 16) :
    aspathDeflate (encode ibufAddN32 segs) =
      .ok (encode addN16 (segs.map deflateSeg), segs.any fun s => s.ases.any (ushrtMax < ·)) := by
  -- the length is summed in 16 bits, which `hlen` makes exact
  have hnlen : segs.foldl (fun nlen s => (nlen + 2 + 2 * s.ases.length) % 2 ^ 16) 0 =
      (encode addN16 (segs.map deflateSeg)).length := by
    have hmod := foldl_nlen segs 0
    have hlt : segs.foldl (fun nlen s => (nlen + 2 + 2 * s.ases.length) % 2 ^ 16) 0 < 2 ^ 16 := by
      cases segs using List.reverseRecOn with
      | nil => exact Nat.two_pow_pos 16
      | append_singleton segs s =>
        rw [List.foldl_append]
        exact Nat.mod_lt _ (Nat.two_pow_pos 16)
    rwa [Nat.mod_eq_of_lt hlt, Nat.zero_add, Nat.mod_eq_of_lt hlen] at hmod
  unfold aspathDeflate
  rw [segLoop_foldl (g := fun nlen s => (nlen + 2 + 2 * s.ases.length) % 2 ^ 16)
    (fun nlen s rest hs => by
      left
      rw [hs.toNat_len]
      rfl) hok, hnlen]
  dsimp only [bind, Except.bind, finish, id]
  split_ifs with hzero
  -- an empty path
  · cases segs with
    | nil => rfl
    | cons s rest => exact absurd hzero (by simp [encode_cons])
  -- the second pass writes the segments with two bytes for each ASN
  · rw [segLoop_foldl (g := fun (st : List UInt8 × Bool) s =>
        (st.1 ++ ([s.type, UInt8.ofNat s.ases.length] ++
          (s.ases.map fun as => if ushrtMax < as then asTrans else as).flatMap addN16),
          st.2 || s.ases.any (ushrtMax < ·)))
        (fun st s rest hs => by
          right
          have hases := asLoop_foldl (ρ := List UInt8 × Bool) (fun s as =>
            if ushrtMax < as then (s.1 ++ addN16 asTrans, true) else (s.1 ++ addN16 as, s.2))
            hs rest (st.1 ++ [s.type, UInt8.ofNat s.ases.length], st.2)
          rw [foldl_deflate, List.append_assoc] at hases
          dsimp only [bind, Except.bind] at hases
          rw [hases]
          rfl) hok, foldl_deflateSeg]
    dsimp only
    rw [List.nil_append, Bool.false_or, written_of_le le_rfl]
    rfl

/-! ## AS numbers in front -/

/-- The segments of `aspath_prepend`. -/
def prependSegs (as : UInt32) (quantum : ℕ) (segs : List Seg) : List Seg :=
  if quantum = 0 then segs
  else
    match segs with
    | [] => [⟨asSequence, List.replicate quantum as⟩]
    | s :: rest =>
      if s.type = asSet then ⟨asSequence, List.replicate quantum as⟩ :: s :: rest
      else
        let overflow := s.ases.length + quantum - 255
        (if 0 < overflow then [⟨asSequence, List.replicate overflow as⟩] else []) ++
          (if 0 < quantum - overflow then
            ⟨asSequence, List.replicate (quantum - overflow) as ++ s.ases⟩ else s) :: rest

theorem firstSegment_encode_cons (hs : Valid s) (rest : List Seg) :
    firstSegment (encode ibufAddN32 (s :: rest)) = .ok (s.type, s.ases.length) := by
  have hsix := hs.six_le_length rest
  unfold firstSegment
  rw [if_neg (by omega), if_neg (by omega), readByte_encode_type, readByte_encode_len]
  show Except.ok (s.type, (UInt8.ofNat s.ases.length).toNat) = _
  rw [hs.toNat_len]

theorem encode_append (add : UInt32 → List UInt8) (segs rest : List Seg) :
    encode add (segs ++ rest) = encode add segs ++ encode add rest :=
  List.flatMap_append

/-- The segment in front that takes what the first segment has no space for. -/
theorem encode_overflow (as : UInt32) (overflow : ℕ) :
    (if 0 < overflow then asSequence :: UInt8.ofNat overflow ::
        (List.replicate overflow as).flatMap ibufAddN32 else []) =
      encode ibufAddN32
        (if 0 < overflow then [⟨asSequence, List.replicate overflow as⟩] else []) := by
  split_ifs
  · rw [encode_cons, List.length_replicate, encode_nil, List.append_nil]
  · rfl

/-- The first segment, with a new header in front of the ASes that are put into it. -/
theorem encode_merged (as : UInt32) (quantum : ℕ) (s : Seg) (rest : List Seg) :
    (if 0 < quantum then asSequence :: UInt8.ofNat (quantum + s.ases.length) ::
        (List.replicate quantum as).flatMap ibufAddN32 else []) ++
        (encode ibufAddN32 (s :: rest)).drop (if 0 < quantum then 2 else 0) =
      encode ibufAddN32 ((if 0 < quantum then ⟨asSequence, List.replicate quantum as ++ s.ases⟩
        else s) :: rest) := by
  split_ifs
  · rw [encode_cons, encode_cons, List.length_append, List.length_replicate, List.flatMap_append]
    simp only [List.cons_append, List.drop_succ_cons, List.drop_zero, List.append_assoc]
  · rw [List.nil_append, List.drop_zero]

theorem length_encode_merged (as : UInt32) (quantum : ℕ) (s : Seg) (rest : List Seg) :
    (encode ibufAddN32 ((if 0 < quantum then ⟨asSequence, List.replicate quantum as ++ s.ases⟩
        else s) :: rest)).length = 4 * quantum + (encode ibufAddN32 (s :: rest)).length := by
  rw [length_encode_cons, length_encode_cons]
  split_ifs
  · rw [List.length_append, List.length_replicate]
    omega
  · omega

theorem length_encode_overflow (as : UInt32) (overflow : ℕ) :
    (encode ibufAddN32
        (if 0 < overflow then [⟨asSequence, List.replicate overflow as⟩] else [])).length =
      (if 0 < overflow then 2 else 0) + 4 * overflow := by
  split_ifs
  · rw [length_encode_cons, List.length_replicate]
    rfl
  · simp
    omega

/-- `aspath_prepend` puts the AS in front, splitting at 255 ASes a segment. -/
theorem aspathPrepend_encode (hok : ∀ s ∈ segs, Valid s)
    (hlen : (encode ibufAddN32 segs).length < 2 ^ 16) (as : UInt32) {quantum : ℕ}
    (hq : quantum ≤ 255) :
    aspathPrepend (encode ibufAddN32 segs) as quantum =
      .ok (encode ibufAddN32 (prependSegs as quantum segs),
        (encode ibufAddN32 (prependSegs as quantum segs)).length % 2 ^ 16) := by
  unfold aspathPrepend prependSegs
  have hmax : ¬255 < quantum := Nat.not_lt.2 hq
  by_cases hzero : quantum = 0
  -- nothing to prepend: the path is copied
  · have hfirst : ∃ type size, firstSegment (encode ibufAddN32 segs) = .ok (type, size) := by
      cases segs with
      | nil => exact ⟨asSet, 0, rfl⟩
      | cons s rest => exact ⟨_, _, firstSegment_encode_cons (hok s List.mem_cons_self) rest⟩
    obtain ⟨type, size, hfirst⟩ := hfirst
    simp only [hfirst, bind, Except.bind, if_neg hmax, if_pos hzero, pure, Except.pure,
      Nat.mod_eq_of_lt hlen]
  have hpos : 0 < quantum := Nat.pos_of_ne_zero hzero
  cases segs with
  -- an empty path: only the new segment
  | nil =>
    have hfirst : firstSegment [] = .ok (asSet, 0) := rfl
    have hout := encode_overflow as quantum
    rw [if_pos hpos, if_pos hpos] at hout
    have hfits := length_encode_overflow as quantum
    rw [if_pos hpos, if_pos hpos] at hfits
    simp only [hfirst, bind, Except.bind, if_neg hmax, if_neg hzero, true_or, decide_true, if_true,
      Nat.sub_self, Nat.lt_irrefl, if_false, if_pos hpos, List.append_nil, encode_nil, hout,
      List.drop_nil, List.length_nil, Nat.add_zero, Nat.mul_comm quantum 4, ← hfits,
      written_of_le le_rfl, pure, Except.pure]
  | cons s rest =>
    have hs := hok s List.mem_cons_self
    have hfirst := firstSegment_encode_cons hs rest
    by_cases hset : s.type = asSet
    -- the first segment is an AS_SET: the new segment stands before the whole path
    · have hout := encode_overflow as quantum
      have hfits := length_encode_overflow as quantum
      rw [if_pos hpos, if_pos hpos] at hout hfits
      have hall : encode ibufAddN32 (⟨asSequence, List.replicate quantum as⟩ :: s :: rest) =
          encode ibufAddN32 [⟨asSequence, List.replicate quantum as⟩] ++
            encode ibufAddN32 (s :: rest) :=
        encode_append ibufAddN32 [_] (s :: rest)
      have hsize : 2 + quantum * 4 + (encode ibufAddN32 (s :: rest)).length =
          (encode ibufAddN32 [⟨asSequence, List.replicate quantum as⟩] ++
            encode ibufAddN32 (s :: rest)).length := by
        rw [List.length_append, hfits]
        omega
      simp only [hfirst, bind, Except.bind, if_neg hmax, if_neg hzero, hset, true_or, decide_true,
        if_true, Nat.sub_self, Nat.lt_irrefl, if_false, if_pos hpos, List.append_nil, hout,
        List.drop_zero, hsize, written_of_le le_rfl, hall, pure, Except.pure]
    · obtain ⟨overflow, hover⟩ : ∃ overflow, overflow = s.ases.length + quantum - 255 := ⟨_, rfl⟩
      have hle := hs.le
      -- the numbers the code computes are those of `prependSegs`
      have hcode : (if (decide (s.type = asSet ∨ 255 < s.ases.length + quantum)) = true then
          overflow else 0) = overflow := by
        simp only [decide_eq_true_eq]
        split_ifs with h
        · rfl
        · have hsmall : ¬255 < s.ases.length + quantum := fun hlt => h (.inr hlt)
          omega
      have hattach : (if (decide (s.type = asSet ∨ 255 < s.ases.length + quantum)) = true then
          2 else 0) = if 0 < overflow then 2 else 0 := by
        have hiff : s.type = asSet ∨ 255 < s.ases.length + quantum ↔ 0 < overflow := by
          constructor
          · rintro (h | h)
            · exact absurd h hset
            · omega
          · exact fun h => .inr (by omega)
        simp only [decide_eq_true_eq]
        exact if_congr hiff rfl rfl
      -- so are the pieces it writes: the overflow, the new first segment, the rest
      have hout : (if 0 < overflow then asSequence :: UInt8.ofNat overflow ::
            (List.replicate overflow as).flatMap ibufAddN32 else []) ++
          (if 0 < quantum - overflow then
            asSequence :: UInt8.ofNat (quantum - overflow + s.ases.length) ::
              (List.replicate (quantum - overflow) as).flatMap ibufAddN32 else []) ++
          (encode ibufAddN32 (s :: rest)).drop (if 0 < quantum - overflow then 2 else 0) =
          encode ibufAddN32
            ((if 0 < overflow then [⟨asSequence, List.replicate overflow as⟩] else []) ++
              (if 0 < quantum - overflow then
                ⟨asSequence, List.replicate (quantum - overflow) as ++ s.ases⟩ else s) ::
                  rest) := by
        rw [encode_append, ← encode_overflow, ← encode_merged, List.append_assoc]
      have hsize : (if 0 < overflow then 2 else 0) + quantum * 4 +
          (encode ibufAddN32 (s :: rest)).length = (encode ibufAddN32
            ((if 0 < overflow then [⟨asSequence, List.replicate overflow as⟩] else []) ++
              (if 0 < quantum - overflow then
                ⟨asSequence, List.replicate (quantum - overflow) as ++ s.ases⟩ else s) ::
                rest)).length := by
        rw [encode_append, List.length_append, length_encode_overflow, length_encode_merged]
        omega
      simp only [hfirst, bind, Except.bind, if_neg hmax, if_neg hzero, hcode, hattach, hout, hsize,
        written_of_le le_rfl, if_neg hset, ← hover, pure, Except.pure]

/-! ## Paths as text -/

/-- The AS numbers of a segment, from number `i` of `n` on. -/
def asesText (n i : ℕ) : List UInt32 → List Char
  | [] => []
  | as :: ases => decimal as.toNat ++ ((if i + 1 < n then [' '] else []) ++ asesText n (i + 1) ases)

/-- The text of the segments of a path; `first` is for the first one. -/
def pathText : Bool → List Seg → List Char
  | _, [] => []
  | first, s :: rest =>
    ((if first then [] else [' ']) ++ aspathDelim s.type false) ++
      (asesText s.ases.length 0 s.ases ++ (aspathDelim s.type true ++ pathText false rest))

/-- As many digits are counted as are printed. -/
theorem digits_eq_length (n : ℕ) : digits n = (decimal n).length := by
  induction n using Nat.strong_induction_on with
  | h n ih =>
    unfold decimal
    rw [digits]
    split_ifs with hsmall
    · rw [Nat.toDigits_of_lt_base (by omega)]
      rfl
    · have hdigits : digits (n / 10) = (Nat.toDigits 10 (n / 10)).length := ih (n / 10) (by omega)
      rw [Nat.toDigits_of_base_le (by omega) (by omega), List.length_append, hdigits]
      rfl

theorem strsizeAses_flatMap (ases : List UInt32) (total : ℕ) (buf : List UInt8) :
    strsizeAses ases.length total (ases.flatMap ibufAddN32 ++ buf) =
      some (total + (ases.map fun as => (decimal as.toNat).length).sum, buf) := by
  induction ases generalizing total with
  | nil => rfl
  | cons as ases ih =>
    rw [List.length_cons, strsizeAses, List.flatMap_cons, List.append_assoc,
      ibufGetN32_ibufAddN32]
    dsimp only [bind, Option.bind_some]
    rw [ih, digits_eq_length, List.map_cons, List.sum_cons, Nat.add_assoc]

theorem length_asesText {ases : List UInt32} {i n : ℕ} (h : i + ases.length = n)
    (hpos : ases ≠ []) :
    (asesText n i ases).length =
      (ases.map fun as => (decimal as.toNat).length).sum + (ases.length - 1) := by
  induction ases generalizing i with
  | nil => exact absurd rfl hpos
  | cons as ases ih =>
    rw [List.length_cons] at h
    cases ases with
    | nil =>
      have hlast : ¬i + 1 < n := by
        rw [List.length_nil] at h
        omega
      simp [asesText, hlast]
    | cons as' ases =>
      have hmore : i + 1 < n := by
        rw [List.length_cons] at h
        omega
      have hrest := ih (i := i + 1) (by omega) (List.cons_ne_nil _ _)
      rw [List.map_cons, List.sum_cons, asesText, if_pos hmore, List.length_append,
        List.length_append, hrest]
      simp only [List.length_cons, List.length_nil]
      omega

theorem length_decimal_pos (n : ℕ) : 0 < (decimal n).length := Nat.length_toDigits_pos

theorem Valid.ne_nil (h : Valid s) : s.ases ≠ [] := List.ne_nil_of_length_pos h.pos

theorem Valid.len_ne_zero (h : Valid s) : UInt8.ofNat s.ases.length ≠ 0 := by
  intro hzero
  have hlen := h.toNat_len
  have hpos := h.pos
  rw [hzero] at hlen
  have hnat : (0 : UInt8).toNat = 0 := rfl
  omega

theorem length_asesText_pos (h : Valid s) : 0 < (asesText s.ases.length 0 s.ases).length := by
  cases hases : s.ases with
  | nil => exact absurd hases h.ne_nil
  | cons as ases =>
    have hpos := length_decimal_pos as.toNat
    rw [asesText, List.length_append]
    omega

/-- The size is that of the text and a NUL character. -/
theorem strsizeLoop_encode (hok : ∀ s ∈ segs, Valid s) (hfuel : segs.length ≤ n) (total : ℕ) :
    strsizeLoop n total (encode ibufAddN32 segs) =
      some (total + (pathText (total = 0) segs).length + 1) := by
  induction segs generalizing n total with
  | nil => cases n <;> rfl
  | cons s rest ih =>
    obtain ⟨hs, hrest⟩ := List.forall_mem_cons.1 hok
    cases n with
    | zero => exact absurd hfuel (by simp)
    | succ n =>
      have htext := length_asesText (Nat.zero_add s.ases.length) hs.ne_nil
      have htextpos := length_asesText_pos hs
      rw [encode_cons, strsizeLoop]
      simp only [bind, if_neg hs.len_ne_zero, Option.bind_some, hs.toNat_len, strsizeAses_flatMap]
      rw [ih hrest (Nat.le_of_succ_le_succ hfuel), pathText]
      obtain ⟨m, hm⟩ : ∃ m, m = (if total ≠ 0 then total + 1 else total) +
          (aspathDelim s.type false).length +
          (s.ases.map fun as => (decimal as.toNat).length).sum + (s.ases.length - 1) +
          (aspathDelim s.type true).length := ⟨_, rfl⟩
      have hmpos : m ≠ 0 := by omega
      rw [← hm, decide_eq_false hmpos]
      simp only [List.length_append, htext, Option.some.injEq]
      by_cases hzero : total = 0
      · simp only [hzero, decide_true, if_true, ne_eq, not_true_eq_false, if_false,
          List.length_nil] at hm ⊢
        omega
      · simp only [hzero, decide_false, ne_eq, not_false_eq_true, if_true, Bool.false_eq_true,
          if_false, List.length_cons, List.length_nil] at hm ⊢
        omega

theorem update_of_lt {size : ℕ} {str text : List Char} (h : text.length < size) :
    update size str text = some (size - text.length, str ++ text) := by
  rw [update, if_neg (Nat.not_le.2 h)]

/-- With room for it, the text of the ASes is printed in full. -/
theorem snprintAses_flatMap {ases : List UInt32} {len i size : ℕ} (str : List Char)
    (buf : List UInt8) (h : (asesText len i ases).length < size) :
    snprintAses len i ases.length size str (ases.flatMap ibufAddN32 ++ buf) =
      some (size - (asesText len i ases).length, str ++ asesText len i ases, buf) := by
  induction ases generalizing i size str with
  | nil =>
    rw [asesText, List.append_nil]
    rfl
  | cons as ases ih =>
    rw [asesText, List.length_append, List.length_append] at h
    rw [List.length_cons, snprintAses, List.flatMap_cons, List.append_assoc,
      ibufGetN32_ibufAddN32]
    simp only [bind, Option.bind_some]
    rw [update_of_lt (by omega)]
    simp only [Option.bind_some]
    split_ifs with hmore
    · rw [if_pos hmore, List.length_cons, List.length_nil] at h
      rw [update_of_lt (by rw [List.length_cons, List.length_nil]; omega)]
      simp only [Option.bind_some]
      rw [ih _ (by rw [List.length_cons, List.length_nil]; omega), asesText, if_pos hmore]
      simp only [List.append_assoc, List.length_append, List.length_cons, List.length_nil,
        Nat.sub_add_eq]
    · rw [if_neg hmore, List.length_nil] at h
      rw [ih _ (by omega), asesText, if_neg hmore]
      simp only [List.append_assoc, List.nil_append, List.length_append, Nat.sub_add_eq]

/-- With room for it, the text of the path is printed in full. -/
theorem snprintLoop_encode (hok : ∀ s ∈ segs, Valid s) (hfuel : segs.length ≤ n) {first : Bool}
    {size : ℕ} (str : List Char) (h : (pathText first segs).length < size) :
    snprintLoop n first size str (encode ibufAddN32 segs) = some (str ++ pathText first segs) := by
  induction segs generalizing n first size str with
  | nil =>
    rw [pathText, List.append_nil]
    cases n <;> rfl
  | cons s rest ih =>
    obtain ⟨hs, hrest⟩ := List.forall_mem_cons.1 hok
    cases n with
    | zero => exact absurd hfuel (by simp)
    | succ n =>
      rw [pathText, List.length_append, @List.length_append _ (asesText _ _ _),
        @List.length_append _ (aspathDelim s.type true)] at h
      rw [encode_cons, snprintLoop]
      simp only [bind, if_neg hs.len_ne_zero, hs.toNat_len]
      rw [update_of_lt (by omega)]
      simp only [Option.bind_some]
      rw [snprintAses_flatMap _ _ (by omega)]
      simp only [Option.bind_some]
      rw [update_of_lt (by omega)]
      simp only [Option.bind_some]
      rw [ih hrest (Nat.le_of_succ_le_succ hfuel) _ (by omega), pathText]
      simp only [List.append_assoc]

/-- The size of the memory is that of the string that is printed into it. -/
theorem aspathAsprint_encode (hok : ∀ s ∈ segs, Valid s) :
    aspathAsprint (encode ibufAddN32 segs) =
      some ((pathText true segs).length + 1, pathText true segs) := by
  have hfuel := length_le_length_encode segs ibufAddN32
  have hsize := strsizeLoop_encode hok hfuel 0
  simp only [decide_true, Nat.zero_add] at hsize
  have hprint := snprintLoop_encode hok hfuel [] (Nat.lt_succ_self (pathText true segs).length)
  unfold aspathAsprint aspathStrsize aspathSnprint
  rw [hsize]
  simp only [bind, Option.bind_some]
  rw [hprint]
  rfl

/-! ## All walks -/

/-- No walk over the path reads beyond its end, writes beyond the end of the result or is fatal,
    and the size of the path as text is the length of the string with its NUL character. -/
structure WalkSafe (path : List UInt8) : Prop where
  count : ∃ cnt, aspathCount path = .ok cnt
  origin (localAs : UInt32) : ∃ as, aspathExtractOrigin path localAs = .ok as
  get (localAs : UInt32) : ∃ stored, aspathGet path localAs = .ok stored
  neighbor (localAs : UInt32) : ∃ as, aspathNeighbor path localAs = .ok as
  loopfree (myAS : UInt32) : ∃ r, aspathLoopfree path myAS = .ok r
  match_ (localAs : UInt32) (f : Filter.FilterAs) (neighas : ℕ) :
    ∃ r, aspathMatch path localAs f neighas = .ok r
  lenmatch (type : Filter.AslenSpec) (aslen : ℕ) : ∃ r, aspathLenmatch path type aslen = .ok r
  deflate : ∃ r, aspathDeflate path = .ok r
  prepend (as : UInt32) (quantum : UInt8) : ∃ r, aspathPrepend path as quantum.toNat = .ok r
  override (neighborAs localAs : UInt32) : ∃ r, aspathOverride path neighborAs localAs = .ok r
  aspa (ra : Rpki.RdeAspa) : ∃ r, aspaCheckAspath path ra = .ok r
  asprint : ∃ str, aspathAsprint path = some (str.length + 1, str)

/-- A segment has at least one AS, so that the number of ASes bounds the length. -/
theorem length_encode_le (hok : ∀ s ∈ segs, Valid s) :
    (encode ibufAddN32 segs).length ≤ 6 * asTotal segs := by
  induction segs with
  | nil => exact le_rfl
  | cons s rest ih =>
    obtain ⟨hs, hrest⟩ := List.forall_mem_cons.1 hok
    have hpos := hs.pos
    have hle := ih hrest
    rw [length_encode_cons, asTotal_cons]
    omega

theorem length_deflate_le (segs : List Seg) :
    (encode addN16 (segs.map deflateSeg)).length ≤ (encode ibufAddN32 segs).length := by
  induction segs with
  | nil => exact le_rfl
  | cons s rest ih =>
    rw [List.map_cons, encode_cons, length_encode_cons, List.length_cons, List.length_cons,
      List.length_append, length_flatMap_addN16]
    simp only [deflateSeg, List.length_map]
    omega

/-- No walker reads outside a valid path of bounded length. -/
theorem walkSafe_encode (hok : ∀ s ∈ segs, Valid s) (htotal : asTotal segs ≤ maxAspathCount) :
    WalkSafe (encode ibufAddN32 segs) := by
  have hlen : (encode ibufAddN32 segs).length < 2 ^ 16 := by
    have hle := length_encode_le hok
    unfold maxAspathCount at htotal
    omega
  have hdeflate := (length_deflate_le segs).trans_lt hlen
  refine {
    count := ⟨_, aspathCount_encode hok⟩
    origin := fun localAs => ⟨_, aspathExtractOrigin_encode hok localAs⟩
    get := fun localAs => ?_
    neighbor := fun localAs => (aspathNeighbor_safe hok localAs).eq_ok
    loopfree := fun myAS => (aspathLoopfree_safe hok myAS).eq_ok
    match_ := fun localAs f neighas => (aspathMatch_safe hok localAs f neighas).eq_ok
    lenmatch := fun type aslen => (aspathLenmatch_safe hok type aslen).eq_ok
    deflate := ⟨_, aspathDeflate_walk hok hdeflate⟩
    prepend := fun as quantum => ⟨_, aspathPrepend_encode hok hlen as ?_⟩
    override := fun neighborAs localAs => ⟨_, aspathOverride_encode hok neighborAs localAs⟩
    aspa := fun ra => (aspaCheckAspath_safe hok ra).eq_ok
    asprint := ⟨_, aspathAsprint_encode hok⟩ }
  · unfold aspathGet
    rw [aspathCount_encode hok, aspathExtractOrigin_encode hok localAs]
    exact ⟨_, rfl⟩
  · have hlt := quantum.toNat_lt
    omega

/-- A path that `aspath_verify` accepts, also with a soft error, is safe to walk; one with two-byte
    ASes is so after it was inflated, which does not fail. -/
theorem verified_safe {buf : List UInt8} {as4byte permitSet : Bool}
    (h : Passed (aspathVerify buf as4byte permitSet)) :
    ∃ path, (if as4byte then some buf else aspathInflate buf) = some path ∧ WalkSafe path := by
  cases as4byte with
  | true =>
    obtain ⟨segs, rfl, hok, htotal⟩ := (Accepted.four permitSet h).exists_segs
    exact ⟨_, rfl, walkSafe_encode hok htotal⟩
  | false =>
    obtain ⟨segs, hout, hok, htotal⟩ := inflate_of_passed h
    exact ⟨_, hout, walkSafe_encode hok htotal⟩

/-- A confederation segment with AS 0, with two-byte ASes. -/
theorem verified_safe_soft : WalkSafe [3, 2, 0, 0, 0, 1, 0, 0, 0, 0] := by
  have hsoft : Passed (aspathVerify [3, 2, 0, 1, 0, 0] false true) := .inr (by decide)
  obtain ⟨path, hpath, hsafe⟩ := verified_safe hsoft
  have hout : aspathInflate [3, 2, 0, 1, 0, 0] = some [3, 2, 0, 0, 0, 1, 0, 0, 0, 0] := by decide
  have heq := Option.some.inj (hout.symm.trans hpath)
  rwa [heq]

end Bgpd.Rde.AspathWalk
