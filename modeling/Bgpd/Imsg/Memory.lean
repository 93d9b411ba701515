import Bgpd.Imsg.Buffer
import Bgpd.Lib.Ends
import Mathlib.Tactic

/-!
# The Memory of a Buffer

Model of `struct ibuf` with its block of memory: `rpos`, `wpos`, `size` and `max` are numbers of 64
bits, and `store` and `load` fail outside of the block. In all runs of the operations no access is
out of bounds, and the buffer is a string of bytes with a position from which it is read.

## Main definitions

- `Ibuf`, `step`: the buffer, and the operations of `imsg-buffer.c`
- `Str`, `specStep`: the string, and what the operations mean for it
- `Sim`: the buffer holds the string

## Main results

- `step_sim`: the operations on the buffer are those on the string
- `buffer_is_string`: all runs
-/

namespace Bgpd.Imsg.Memory

open Bgpd.Lib

/-! ## Memory -/

/-- A `size_t` that is passed to an operation. -/
abbrev SizeT := Fin (2 ^ 64)

/-- `SIZE_MAX` -/
def sizeMax : ℕ := 2 ^ 64 - 1

/-- The sum of two `size_t`. -/
def addSize (a b : ℕ) : ℕ := (a + b) % 2 ^ 64

/-- The difference of two `size_t`. -/
def subSize (a b : ℕ) : ℕ := (a + (2 ^ 64 - b)) % 2 ^ 64

/-- An access out of bounds. -/
inductive Fault
  | bounds

/-- Some bytes of a block are replaced. -/
def splice (block : List Byte) (pos : ℕ) (data : List Byte) : List Byte :=
  block.take pos ++ data ++ block.drop (pos + data.length)

/-- `memcpy` into a block. -/
def store (block : List Byte) (pos : ℕ) (data : List Byte) : Except Fault (List Byte) :=
  if pos + data.length ≤ block.length then .ok (splice block pos data) else .error .bounds

/-- `memcpy` from a block. -/
def load (block : List Byte) (pos len : ℕ) : Except Fault (List Byte) :=
  if pos + len ≤ block.length then .ok ((block.drop pos).take len) else .error .bounds

/-- `realloc`; the new bytes may be anything. -/
def realloc (junk : Byte) (block : List Byte) (len : ℕ) : List Byte :=
  (block ++ List.replicate (len - block.length) junk).take len

/-! ## The buffer -/

/-- `struct ibuf`; `stack` is `IBUF_FD_MARK_ON_STACK`. -/
structure Ibuf where
  buf : List Byte
  size : ℕ
  max : ℕ
  wpos : ℕ
  rpos : ℕ
  stack : Bool

/-- `ibuf_open`, if there is memory. -/
def ibufOpen (len : SizeT) : Ibuf := ⟨List.replicate len 0, len, len, 0, 0, false⟩

/-- `ibuf_dynamic`, if there is memory. -/
def ibufDynamic (len max : SizeT) : Option Ibuf :=
  if max = 0 ∨ max < len then none else some ⟨List.replicate len 0, len, max, 0, 0, false⟩

/-- `ibuf_from_buffer` -/
def ibufFromBuffer (data : List Byte) : Ibuf := ⟨data, data.length, 0, data.length, 0, true⟩

/-- `ibuf_size` -/
def ibufSize (buf : Ibuf) : ℕ := subSize buf.wpos buf.rpos

/-- `ibuf_left` -/
def ibufLeft (buf : Ibuf) : ℕ := if buf.stack then 0 else subSize buf.max buf.wpos

/-- `ibuf_reserve`: the position of the new bytes, or none. `mem` is none if there is no memory. -/
def ibufReserve (mem : Option Byte) (buf : Ibuf) (len : ℕ) : Except Fault (Ibuf × Option ℕ) :=
  if sizeMax - buf.wpos < len then .ok (buf, none)
  else if buf.stack then .ok (buf, none)
  else if buf.size < addSize buf.wpos len then
    if buf.max < addSize buf.wpos len then .ok (buf, none)
    else
      match mem with
      | none => .ok (buf, none)
      | some junk => do
        let nb ← store (realloc junk buf.buf (addSize buf.wpos len)) buf.size
          (List.replicate (subSize (addSize buf.wpos len) buf.size) 0)
        return ({ buf with
          buf := nb, size := addSize buf.wpos len, wpos := addSize buf.wpos len }, some buf.wpos)
  else .ok ({ buf with wpos := addSize buf.wpos len }, some buf.wpos)

/-- `ibuf_add` -/
def ibufAdd (mem : Option Byte) (buf : Ibuf) (data : List Byte) : Except Fault (Ibuf × Bool) :=
  if data.length = 0 then .ok (buf, true)
  else do
    match ← ibufReserve mem buf data.length with
    | (buf, none) => return (buf, false)
    | (buf, some b) =>
      let block ← store buf.buf b data
      return ({ buf with buf := block }, true)

/-- `ibuf_add_zero`, which is `ibuf_add` of zeros. -/
def ibufAddZero (mem : Option Byte) (buf : Ibuf) (len : ℕ) : Except Fault (Ibuf × Bool) :=
  ibufAdd mem buf (List.replicate len 0)

/-- `ibuf_seek` -/
def ibufSeek (buf : Ibuf) (pos len : ℕ) : Option ℕ :=
  if ibufSize buf < pos ∨ sizeMax - pos < len ∨ ibufSize buf < addSize pos len then none
  else some (addSize buf.rpos pos)

/-- `ibuf_set` -/
def ibufSet (buf : Ibuf) (pos : ℕ) (data : List Byte) : Except Fault (Ibuf × Bool) :=
  match ibufSeek buf pos data.length with
  | none => .ok (buf, false)
  | some b =>
    if data.length = 0 then .ok (buf, true)
    else do
      let block ← store buf.buf b data
      return ({ buf with buf := block }, true)

/-- `ibuf_set_maxsize` -/
def ibufSetMaxsize (buf : Ibuf) (max : ℕ) : Except Fault (Ibuf × Bool) :=
  if buf.stack then .ok (buf, false)
  else if buf.max < max then .ok (buf, false)
  else if max < buf.wpos then .ok (buf, false)
  else if max < buf.size then do
    let block ← store buf.buf max (List.replicate (subSize buf.size max) 0)
    return ({ buf with buf := block, size := max, max := max }, true)
  else .ok ({ buf with max := max }, true)

/-- `ibuf_truncate` -/
def ibufTruncate (mem : Option Byte) (buf : Ibuf) (len : ℕ) : Except Fault (Ibuf × Bool) :=
  if len ≤ ibufSize buf then .ok ({ buf with wpos := addSize buf.rpos len }, true)
  else if buf.stack then .ok (buf, false)
  else ibufAddZero mem buf (subSize len (ibufSize buf))

/-- `ibuf_rewind` -/
def ibufRewind (buf : Ibuf) : Ibuf := { buf with rpos := 0 }

/-- `ibuf_get` -/
def ibufGet (buf : Ibuf) (len : ℕ) : Except Fault (Ibuf × Option (List Byte)) :=
  if ibufSize buf < len then .ok (buf, none)
  else do
    let data ← load buf.buf buf.rpos len
    return ({ buf with rpos := addSize buf.rpos len }, some data)

/-- `ibuf_skip` -/
def ibufSkip (buf : Ibuf) (len : ℕ) : Ibuf × Bool :=
  if ibufSize buf < len then (buf, false)
  else ({ buf with rpos := addSize buf.rpos len }, true)

/-- The operations on a buffer. -/
inductive Op
  | add (data : List Byte)
  | addZero (len : SizeT)
  | set (pos : SizeT) (data : List Byte)
  | setMaxsize (max : SizeT)
  | truncate (len : SizeT)
  | rewind
  | get (len : SizeT)
  | skip (len : SizeT)

/-- An operation that returns 0 or -1. -/
def answer (r : Ibuf × Bool) : Ibuf × Option (List Byte) := (r.1, if r.2 then some [] else none)

/-- One operation: the data it returns, or none if it fails. -/
def step (mem : Option Byte) (buf : Ibuf) : Op → Except Fault (Ibuf × Option (List Byte))
  | .add data => answer <$> ibufAdd mem buf data
  | .addZero len => answer <$> ibufAddZero mem buf len
  | .set pos data => answer <$> ibufSet buf pos data
  | .setMaxsize max => answer <$> ibufSetMaxsize buf max
  | .truncate len => answer <$> ibufTruncate mem buf len
  | .rewind => .ok (ibufRewind buf, some [])
  | .get len => ibufGet buf len
  | .skip len => .ok (answer (ibufSkip buf len))

/-! ## The string -/

/-- A string of bytes, of which the first `rpos` were read. -/
structure Str where
  data : List Byte
  rpos : ℕ
  max : ℕ
  stack : Bool

namespace Str

/-- The number of bytes that were not read. -/
def size (s : Str) : ℕ := s.data.length - s.rpos

def add (s : Str) (data : List Byte) : Option Str :=
  if data = [] then some s
  else if s.stack = true ∨ s.max < s.data.length + data.length then none
  else some { s with data := s.data ++ data }

def set (s : Str) (pos : ℕ) (data : List Byte) : Option Str :=
  if s.size < pos + data.length then none
  else some { s with data := splice s.data (s.rpos + pos) data }

def setMaxsize (s : Str) (max : ℕ) : Option Str :=
  if s.stack = true ∨ s.max < max ∨ max < s.data.length then none else some { s with max := max }

def truncate (s : Str) (len : ℕ) : Option Str :=
  if len ≤ s.size then some { s with data := s.data.take (s.rpos + len) }
  else s.add (List.replicate (len - s.size) 0)

def skip (s : Str) (len : ℕ) : Option Str :=
  if s.size < len then none else some { s with rpos := s.rpos + len }

end Str

/-- What an operation does to the string, if it can be done, and what it returns. -/
def specStep (s : Str) : Op → Option (Str × List Byte)
  | .add data => (s.add data).map fun s => (s, [])
  | .addZero len => (s.add (List.replicate len 0)).map fun s => (s, [])
  | .set pos data => (s.set pos data).map fun s => (s, [])
  | .setMaxsize max => (s.setMaxsize max).map fun s => (s, [])
  | .truncate len => (s.truncate len).map fun s => (s, [])
  | .rewind => some ({ s with rpos := 0 }, [])
  | .get len => (s.skip len).map fun s' => (s', (s.data.drop s.rpos).take len)
  | .skip len => (s.skip len).map fun s => (s, [])

/-! ## Blocks -/

variable {block data : List Byte} {pos len n : ℕ} {b b' : Ibuf} {s s' : Str} {mem : Option Byte}

theorem addSize_eq (h : len + n < 2 ^ 64) : addSize len n = len + n := Nat.mod_eq_of_lt h

theorem subSize_eq (hle : n ≤ len) (h : len < 2 ^ 64) : subSize len n = len - n := by
  rw [subSize]
  omega

theorem length_splice (h : pos + data.length ≤ block.length) :
    (splice block pos data).length = block.length := by
  simp only [splice, List.length_append, List.length_take, List.length_drop]
  omega

/-- The bytes before the new ones stay. -/
theorem take_splice_of_le (hn : n ≤ pos) (h : pos + data.length ≤ block.length) :
    (splice block pos data).take n = block.take n := by
  have hlen : (block.take pos).length = pos := by
    rw [List.length_take]
    omega
  rw [splice, List.append_assoc, List.take_append_of_le_length (by omega), List.take_take,
    Nat.min_eq_left hn]

/-- New bytes within a part of the block. -/
theorem take_splice (h : pos + data.length ≤ n) (hn : n ≤ block.length) :
    (splice block pos data).take n = splice (block.take n) pos data := by
  have hlen : (block.take pos ++ data).length = pos + data.length := by
    rw [List.length_append, List.length_take]
    omega
  rw [splice, splice, List.take_append, hlen, List.take_of_length_le (by omega), List.take_take,
    Nat.min_eq_left (by omega), List.drop_take]

/-- New bytes at the end. -/
theorem splice_end (hpos : pos = block.length - data.length) (h : data.length ≤ block.length) :
    splice block pos data = block.take pos ++ data := by
  rw [splice, List.drop_eq_nil_of_le (by omega), List.append_nil]

theorem store_eq (h : pos + data.length ≤ block.length) :
    store block pos data = .ok (splice block pos data) := if_pos h

theorem length_realloc (junk : Byte) (block : List Byte) (len : ℕ) :
    (realloc junk block len).length = len := by
  simp only [realloc, List.length_take, List.length_append, List.length_replicate]
  omega

theorem take_realloc (junk : Byte) (hn : n ≤ block.length) (hlen : n ≤ len) :
    (realloc junk block len).take n = block.take n := by
  rw [realloc, List.take_take, Nat.min_eq_left hlen, List.take_append_of_le_length hn]

/-! ## One operation -/

/-- The buffer holds the string. -/
structure Sim (b : Ibuf) (s : Str) : Prop where
  wpos : b.wpos = s.data.length
  rpos : b.rpos = s.rpos
  max : b.max = s.max
  stack : b.stack = s.stack
  content : b.buf.take b.wpos = s.data
  read : s.rpos ≤ s.data.length
  written : b.wpos ≤ b.size
  block : b.size ≤ b.buf.length
  room : b.stack = false → b.size ≤ b.max
  size_lt : b.size < 2 ^ 64
  max_lt : b.max < 2 ^ 64

theorem Sim.size_eq (h : Sim b s) : ibufSize b = s.size := by
  have hw := h.wpos
  have hr := h.rpos
  have hread := h.read
  have hwritten := h.written
  have hlt := h.size_lt
  rw [ibufSize, subSize_eq (by omega) (by omega), Str.size, hw, hr]

/-- How an operation ends: it does what it means, or it fails and changes nothing. -/
inductive Outcome (mem : Option Byte) (b : Ibuf) (spec : Option (Str × List Byte)) :
    Ibuf × Option (List Byte) → Prop
  | done {b' : Ibuf} {s' : Str} {data : List Byte} (hspec : spec = some (s', data))
      (hsim : Sim b' s') : Outcome mem b spec (b', some data)
  | failed (hwhy : spec = none ∨ mem = none) : Outcome mem b spec (b, none)

/-- What `ibuf_reserve` leaves. -/
structure Reserved (b : Ibuf) (len : ℕ) (b' : Ibuf) : Prop where
  wpos : b'.wpos = b.wpos + len
  rpos : b'.rpos = b.rpos
  max : b'.max = b.max
  stack : b'.stack = b.stack
  content : b'.buf.take b.wpos = b.buf.take b.wpos
  written : b'.wpos ≤ b'.size
  block : b'.size ≤ b'.buf.length
  room : b'.size ≤ b'.max

/-- A reservation fails for a stack buffer, beyond the maximum or without memory. -/
theorem reserve_spec (h : Sim b s) (mem : Option Byte) (len : ℕ) :
    Ends (ibufReserve mem b len) fun r =>
      (r = (b, none) ∧ (s.stack = true ∨ s.max < s.data.length + len ∨ mem = none)) ∨
      (r.2 = some b.wpos ∧ s.stack = false ∧ s.data.length + len ≤ s.max ∧ Reserved b len r.1) := by
  have hw := h.wpos
  have hmax := h.max
  have hstack := h.stack
  have hwritten := h.written
  have hblock := h.block
  have hsize := h.size_lt
  have hmaxlt := h.max_lt
  have hsizeMax : sizeMax = 2 ^ 64 - 1 := rfl
  unfold ibufReserve
  refine Ends.ite (fun hbig => ?_) fun hfits => Ends.ite (fun hst => ?_) fun hst => ?_
  -- more than `max`
  · rw [ends_ok_iff]
    refine .inl ⟨rfl, .inr (.inl ?_)⟩
    omega
  -- a buffer on the stack never grows
  · rw [ends_ok_iff]
    exact .inl ⟨rfl, .inl (hstack ▸ hst)⟩
  · rw [Bool.not_eq_true] at hst
    have hroom := h.room hst
    have hsum : addSize b.wpos len = b.wpos + len := addSize_eq (by omega)
    rw [hsum]
    -- three cases: grow but over `max`, grow, and room already
    refine Ends.ite (fun hgrow => Ends.ite (fun hfull => ?_) fun hleft => ?_) fun hin => ?_
    · rw [ends_ok_iff]
      exact .inl ⟨rfl, .inr (.inl (by omega))⟩
    · cases mem with
      | none =>
        dsimp only
        rw [ends_ok_iff]
        exact .inl ⟨rfl, .inr (.inr rfl)⟩
      -- the grown block starts with the old one, so what was written is still there
      | some junk =>
        have hle : b.size + (List.replicate (b.wpos + len - b.size) (0 : Byte)).length ≤
            (realloc junk b.buf (b.wpos + len)).length := by
          rw [List.length_replicate, length_realloc]
          omega
        dsimp only
        rw [subSize_eq (by omega) (by omega), store_eq hle]
        refine ⟨_, rfl, .inr ⟨rfl, hstack ▸ hst, by omega, rfl, rfl, rfl, rfl, ?_, le_rfl, ?_, ?_⟩⟩
        · dsimp only
          rw [take_splice_of_le hwritten hle, take_realloc junk (by omega) (by omega)]
        · dsimp only
          rw [length_splice hle, length_realloc]
        · dsimp only
          omega
    · rw [ends_ok_iff]
      refine .inr ⟨rfl, hstack ▸ hst, by omega, rfl, rfl, rfl, rfl, rfl, ?_, hblock, hroom⟩
      dsimp only
      omega

/-- `ibuf_add` appends to the string or fails and leaves it. -/
theorem add_spec (h : Sim b s) (mem : Option Byte) (data : List Byte) :
    Ends (answer <$> ibufAdd mem b data) (Outcome mem b ((s.add data).map fun s => (s, []))) := by
  rw [Str.add, ibufAdd]
  by_cases hnil : data = []
  -- nothing to add
  · rw [if_pos hnil, if_pos (List.length_eq_zero_iff.2 hnil)]
    exact ⟨_, rfl, .done rfl h⟩
  · rw [if_neg hnil, if_neg fun hlen => hnil (List.length_eq_zero_iff.1 hlen)]
    obtain ⟨r, hres, ⟨rfl, hwhy⟩ | ⟨hpos, hst, hroom, hr⟩⟩ := reserve_spec h mem data.length
    -- the reservation fails for one of three reasons, and the string says which
    · rw [hres]
      refine ⟨_, rfl, .failed ?_⟩
      rcases hwhy with hst | hfull | hmem
      · rw [if_pos (Or.inl hst)]
        exact .inl rfl
      · rw [if_pos (Or.inr hfull)]
        exact .inl rfl
      · exact .inr hmem
    -- the reservation is the place behind the string, and the data goes there
    · obtain ⟨b₁, pos⟩ := r
      dsimp only at hpos hr
      subst hpos
      have hw := h.wpos
      have hle : b.wpos + data.length ≤ b₁.buf.length := by
        have h₁ := hr.wpos
        have h₂ := hr.written
        have h₃ := hr.block
        omega
      have hfits : ¬(s.stack = true ∨ s.max < s.data.length + data.length) := by
        rw [hst]
        simp only [Bool.false_eq_true, false_or]
        omega
      rw [hres, if_neg hfits]
      have hstore := store_eq hle
      refine ⟨({ b₁ with buf := splice b₁.buf b.wpos data }, some []), ?_, .done rfl ?_⟩
      · change answer <$> (do
          let block ← store b₁.buf b.wpos data
          return ({ b₁ with buf := block }, true)) = _
        rw [hstore]
        rfl
      · have hmax := h.max
        have hmaxlt := h.max_lt
        have hrmax := hr.max
        have hrroom := hr.room
        refine ⟨?_, hr.rpos.trans h.rpos, hr.max.trans h.max, hr.stack.trans h.stack, ?_, ?_,
          hr.written, ?_, fun _ => hr.room, by dsimp only; omega, by dsimp only; omega⟩
        · dsimp only
          rw [hr.wpos, hw, List.length_append]
        -- the old bytes are below `b.wpos`, the data fills the rest
        · have hend : (splice b₁.buf b.wpos data).take (b.wpos + data.length) =
              b₁.buf.take b.wpos ++ data := by
            rw [take_splice le_rfl hle, splice_end, List.take_take, Nat.min_eq_left (by omega)]
            · rw [List.length_take]
              omega
            · rw [List.length_take]
              omega
          dsimp only
          rw [hr.wpos, hend, hr.content, h.content]
        · have hread := h.read
          dsimp only
          rw [List.length_append]
          omega
        · dsimp only
          rw [length_splice hle]
          exact hr.block

/-- `ibuf_set` overwrites bytes inside the string or fails. -/
theorem set_spec (h : Sim b s) (pos : SizeT) (data : List Byte) :
    Ends (answer <$> ibufSet b pos data)
      (Outcome mem b ((s.set pos data).map fun s => (s, []))) := by
  have hsize := h.size_eq
  have hw := h.wpos
  have hr := h.rpos
  have hread := h.read
  have hwritten := h.written
  have hblock := h.block
  have hlt := h.size_lt
  have hpos := pos.isLt
  have hss : s.size = s.data.length - s.rpos := rfl
  have hsizeMax : sizeMax = 2 ^ 64 - 1 := rfl
  rw [Str.set, ibufSet, ibufSeek, hsize]
  by_cases hbig : s.size < pos + data.length
  · have hfail : s.size < (pos : ℕ) ∨ sizeMax - pos < data.length ∨
        s.size < addSize pos data.length := by
      -- the C compares without an overflow: either test finds the position too large
      by_cases hover : sizeMax - pos < data.length
      · exact .inr (.inl hover)
      · rw [addSize_eq (by omega)]
        exact .inr (.inr hbig)
    rw [if_pos hbig, if_pos hfail]
    exact ⟨_, rfl, .failed (.inl rfl)⟩
  -- from here no sum wraps
  · have hsum : addSize pos data.length = pos + data.length := addSize_eq (by omega)
    have hoff : addSize b.rpos pos = s.rpos + pos := by
      rw [addSize_eq (by omega), hr]
    rw [if_neg hbig, hsum, if_neg (by omega), hoff]
    dsimp only
    by_cases hnil : data.length = 0
    -- no bytes: the splice changes nothing
    · rw [if_pos hnil]
      refine ⟨_, rfl, .done rfl ?_⟩
      rw [List.length_eq_zero_iff] at hnil
      rw [hnil, splice, List.append_nil, List.length_nil, Nat.add_zero, List.take_append_drop]
      exact h
    -- the bytes are written inside the string, whose length stays
    · have hle : s.rpos + pos + data.length ≤ b.buf.length := by omega
      rw [if_neg hnil, store_eq hle]
      refine ⟨_, rfl, .done rfl ?_⟩
      have hlen : (splice s.data (s.rpos + pos) data).length = s.data.length :=
        length_splice (by omega)
      refine ⟨hw.trans hlen.symm, hr, h.max, h.stack, ?_, ?_, hwritten, ?_, h.room, hlt, h.max_lt⟩
      · dsimp only
        rw [take_splice (by omega) (by omega), h.content]
      · dsimp only
        rw [hlen]
        exact hread
      · dsimp only
        rw [length_splice hle]
        exact hblock

/-- `ibuf_set_maxsize` does what its abstract counterpart does. -/
theorem setMaxsize_spec (h : Sim b s) (max : SizeT) :
    Ends (answer <$> ibufSetMaxsize b max)
      (Outcome mem b ((s.setMaxsize max).map fun s => (s, []))) := by
  have hw := h.wpos
  have hmax := h.max
  have hstack := h.stack
  have hwritten := h.written
  have hblock := h.block
  rw [Str.setMaxsize, ibufSetMaxsize, ← hstack, ← hmax, ← hw]
  by_cases hst : b.stack = true
  -- the three refusals: a stack buffer, a larger maximum, more bytes in use
  · rw [if_pos hst, if_pos (Or.inl hst)]
    exact ⟨_, rfl, .failed (.inl rfl)⟩
  rw [if_neg hst]
  by_cases hgrow : b.max < max
  · rw [if_pos hgrow, if_pos (Or.inr (Or.inl hgrow))]
    exact ⟨_, rfl, .failed (.inl rfl)⟩
  rw [if_neg hgrow]
  by_cases hused : (max : ℕ) < b.wpos
  · rw [if_pos hused, if_pos (Or.inr (Or.inr hused))]
    exact ⟨_, rfl, .failed (.inl rfl)⟩
  have hfits : ¬(b.stack = true ∨ b.max < max ∨ (max : ℕ) < b.wpos) := by
    rintro (hc | hc | hc)
    · exact hst hc
    · exact hgrow hc
    · exact hused hc
  rw [if_neg hused, if_neg hfits]
  have hlt := max.isLt
  by_cases hclear : (max : ℕ) < b.size
  -- the block was larger than the new maximum: what is above it is zeroed
  · have hle : max + (List.replicate (b.size - max) (0 : Byte)).length ≤ b.buf.length := by
      rw [List.length_replicate]
      omega
    rw [if_pos hclear, subSize_eq hclear.le h.size_lt, store_eq hle]
    refine ⟨_, rfl, .done rfl ⟨hw, h.rpos, rfl, rfl, ?_, h.read, ?_, ?_, fun _ => le_rfl, hlt,
      hlt⟩⟩
    · dsimp only
      rw [take_splice_of_le (by omega) hle]
      exact h.content
    · dsimp only
      omega
    · dsimp only
      rw [length_splice hle]
      omega
  · rw [if_neg hclear]
    exact ⟨_, rfl, .done rfl ⟨hw, h.rpos, rfl, rfl, h.content, h.read, hwritten, hblock,
      fun _ => Nat.le_of_not_lt hclear, h.size_lt, hlt⟩⟩

/-- `ibuf_truncate` cuts the string, or pads it with zeros as far as it may grow. -/
theorem truncate_spec (h : Sim b s) (mem : Option Byte) (len : SizeT) :
    Ends (answer <$> ibufTruncate mem b len)
      (Outcome mem b ((s.truncate len).map fun s => (s, []))) := by
  have hw := h.wpos
  have hr := h.rpos
  have hread := h.read
  have hwritten := h.written
  have hlt := h.size_lt
  have hlen := len.isLt
  have hss : s.size = s.data.length - s.rpos := rfl
  rw [Str.truncate, ibufTruncate, h.size_eq]
  by_cases hshort : (len : ℕ) ≤ s.size
  -- shorter: the string is cut at the place, counted from the read position
  · have hsum : addSize b.rpos len = s.rpos + len := by rw [addSize_eq (by omega), hr]
    rw [if_pos hshort, if_pos hshort, hsum]
    have htake : (s.data.take (s.rpos + len)).length = s.rpos + len := by
      rw [List.length_take]
      omega
    refine ⟨_, rfl, .done rfl ⟨htake.symm, hr, h.max, h.stack, ?_, ?_, ?_, h.block, h.room, hlt,
      h.max_lt⟩⟩
    · dsimp only
      rw [← h.content, List.take_take, Nat.min_eq_left (by omega)]
    · dsimp only
      omega
    · dsimp only
      omega
  -- longer: zero bytes are added, which a stack buffer refuses
  · rw [if_neg hshort, if_neg hshort]
    by_cases hst : b.stack = true
    · have hnil : List.replicate (len - s.size) (0 : Byte) ≠ [] := by
        rw [Ne, List.replicate_eq_nil_iff]
        omega
      rw [if_pos hst, Str.add, if_neg hnil, if_pos (Or.inl (h.stack ▸ hst))]
      exact ⟨_, rfl, .failed (.inl rfl)⟩
    · rw [if_neg hst, subSize_eq (by omega) hlen]
      exact add_spec h mem _

theorem Sim.skip (h : Sim b s) (hle : len ≤ s.size) :
    Sim { b with rpos := addSize b.rpos len } { s with rpos := s.rpos + len } := by
  have hw := h.wpos
  have hr := h.rpos
  have hread := h.read
  have hwritten := h.written
  have hlt := h.size_lt
  have hss : s.size = s.data.length - s.rpos := rfl
  have hsum : addSize b.rpos len = s.rpos + len := by rw [addSize_eq (by omega), hr]
  refine ⟨hw, hsum, h.max, h.stack, h.content, ?_, hwritten, h.block, h.room, hlt, h.max_lt⟩
  dsimp only
  omega

theorem get_spec (h : Sim b s) (len : ℕ) :
    Ends (ibufGet b len)
      (Outcome mem b ((s.skip len).map fun s' => (s', (s.data.drop s.rpos).take len))) := by
  rw [Str.skip, ibufGet, h.size_eq]
  by_cases hbig : s.size < len
  · rw [if_pos hbig, if_pos hbig]
    exact ⟨_, rfl, .failed (.inl rfl)⟩
  · have hw := h.wpos
    have hr := h.rpos
    have hread := h.read
    have hwritten := h.written
    have hblock := h.block
    have hss : s.size = s.data.length - s.rpos := rfl
    have hload : load b.buf b.rpos len = .ok ((s.data.drop s.rpos).take len) := by
      rw [load, if_pos (by omega), ← h.content, hr, List.drop_take, List.take_take,
        Nat.min_eq_left (by omega)]
    rw [if_neg hbig, if_neg hbig, hload]
    exact ⟨_, rfl, .done rfl (h.skip (Nat.le_of_not_lt hbig))⟩

/-- The step lemma: an operation on the buffer is the one on the string. -/
theorem step_sim (h : Sim b s) (mem : Option Byte) (op : Op) :
    Ends (step mem b op) (Outcome mem b (specStep s op)) := by
  cases op with
  | add data => exact add_spec h mem data
  | addZero len => exact add_spec h mem _
  | set pos data => exact set_spec h pos data
  | setMaxsize max => exact setMaxsize_spec h max
  | truncate len => exact truncate_spec h mem len
  | rewind =>
    refine ⟨_, rfl, .done rfl ⟨h.wpos, rfl, h.max, h.stack, h.content, Nat.zero_le _, h.written,
      h.block, h.room, h.size_lt, h.max_lt⟩⟩
  | get len => exact get_spec h len
  | skip len =>
    rw [step, specStep, ibufSkip, Str.skip, h.size_eq]
    by_cases hbig : s.size < len
    · rw [if_pos hbig, if_pos hbig]
      exact ⟨_, rfl, .failed (.inl rfl)⟩
    · rw [if_neg hbig, if_neg hbig]
      exact ⟨_, rfl, .done rfl (h.skip (Nat.le_of_not_lt hbig))⟩

/-! ## Runs -/

/-- The buffers of all runs, with the strings they stand for. -/
inductive Reach : Ibuf → Str → Prop
  | alloc (len : SizeT) : Reach (ibufOpen len) ⟨[], 0, len, false⟩
  | dynamic {b : Ibuf} (len max : SizeT) (hopen : ibufDynamic len max = some b) :
      Reach b ⟨[], 0, max, false⟩
  | fromBuffer (data : List Byte) (hlen : data.length < 2 ^ 64) :
      Reach (ibufFromBuffer data) ⟨data, 0, 0, true⟩
  | done {b b' : Ibuf} {s s' : Str} {data data' : List Byte} (mem : Option Byte) (op : Op)
      (hrun : Reach b s) (hstep : step mem b op = .ok (b', some data))
      (hspec : specStep s op = some (s', data')) : Reach b' s'
  | failed {b b' : Ibuf} {s : Str} (mem : Option Byte) (op : Op) (hrun : Reach b s)
      (hstep : step mem b op = .ok (b', none)) : Reach b' s

theorem sim_new (len max : SizeT) (hle : len ≤ max) :
    Sim ⟨List.replicate len 0, len, max, 0, 0, false⟩ ⟨[], 0, max, false⟩ :=
  ⟨rfl, rfl, rfl, rfl, List.take_zero, le_rfl, Nat.zero_le _, List.length_replicate.ge,
    fun _ => hle, len.isLt, max.isLt⟩

/-- The run lemma. -/
theorem Reach.sim (hr : Reach b s) : Sim b s := by
  induction hr with
  | alloc len => exact sim_new len len le_rfl
  | dynamic len max hopen =>
    rw [ibufDynamic] at hopen
    split_ifs at hopen with hbad
    rw [Option.some.injEq] at hopen
    subst hopen
    exact sim_new len max (not_lt.1 fun hlt => hbad (.inr hlt))
  | fromBuffer data hlen =>
    refine ⟨rfl, rfl, rfl, rfl, List.take_length, Nat.zero_le _, le_rfl, le_rfl,
      fun hst => ?_, hlen,
      Nat.two_pow_pos 64⟩
    cases hst
  | done mem op hrun hstep hspec ih =>
    have hout := ends_eq (step_sim ih mem op) hstep
    cases hout with
    | done hspec' hsim =>
      rw [hspec, Option.some.injEq, Prod.mk.injEq] at hspec'
      rw [hspec'.1]
      exact hsim
  | failed mem op hrun hstep ih =>
    have hout := ends_eq (step_sim ih mem op) hstep
    cases hout with
    | failed _ => exact ih

/-- What holds of a buffer and its string. -/
structure BufferOk (b : Ibuf) (s : Str) : Prop where
  /-- The positions are in order and within the block. -/
  order : b.rpos ≤ b.wpos ∧ b.wpos ≤ b.size ∧ b.size ≤ b.buf.length ∧
    (b.stack = false → b.size ≤ b.max)
  content : load b.buf 0 b.wpos = .ok s.data
  size : ibufSize b = s.size
  left : ibufLeft b = if s.stack then 0 else s.max - s.data.length
  /-- No operation has an access out of bounds, and each does to the string what it means, or fails
      and changes nothing, because it cannot be done or for want of memory. -/
  ops : ∀ mem op, ∃ r, step mem b op = .ok r ∧ Outcome mem b (specStep s op) r

/-- In every run of operations a buffer is a string of bytes: there is no access out of bounds,
    whatever the arguments and however the allocations end, and every operation does what it does to
    the string. -/
theorem buffer_is_string (b : Ibuf) (s : Str) (hr : Reach b s) : BufferOk b s := by
  have h := hr.sim
  have hw := h.wpos
  have hrpos := h.rpos
  have hread := h.read
  have hwritten := h.written
  have hblock := h.block
  refine ⟨⟨by omega, hwritten, hblock, h.room⟩, ?_, h.size_eq, ?_, fun mem op => step_sim h mem op⟩
  · rw [load, if_pos (by omega), List.drop_zero, h.content]
  · rw [ibufLeft, h.stack]
    by_cases hst : s.stack = true
    · rw [if_pos hst, if_pos hst]
    · have hroom := h.room (by rw [h.stack]; exact Bool.eq_false_iff.2 hst)
      rw [if_neg hst, if_neg hst, subSize_eq (by omega) h.max_lt, h.max, hw]

/-- A buffer grows, is cut and grows again: the old bytes are gone. -/
theorem buffer_is_string_grown : ∃ b, Reach b ⟨[1, 0, 0], 0, 8, false⟩ ∧
    BufferOk b ⟨[1, 0, 0], 0, 8, false⟩ := by
  have hnew := Reach.dynamic 2 8 rfl
  have hadd := hnew.done (some 255) (.add [1, 2, 3, 4]) rfl rfl
  have hcut := hadd.done none (.truncate 1) rfl rfl
  have hgrow := hcut.done none (.truncate 3) rfl rfl
  exact ⟨_, hgrow, buffer_is_string _ _ hgrow⟩

end Bgpd.Imsg.Memory
