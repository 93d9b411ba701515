import Bgpd.Imsg.Buffer
import Mathlib.Tactic

/-!
# Messages in a Stream of Bytes

A message has a header with its length, so a stream of messages can only be read in one way. The
loop of `ibuf_read_process` finds the messages however the stream is cut. A descriptor comes with
the first byte of its message; the loop attaches it when it reads the header, and this is the right
message if the whole header came with the descriptor.

## Main results

- `imsgMsg_wire`: the bytes of a message that is queued
- `msgbufWrite_stream`: writing keeps the stream
- `readLoop_spec`: what the loop reads
-/

namespace Bgpd.Imsg

variable {maxsize fuel n k : ℕ} {m : Imsg} {ms done rem rem' : List Imsg} {r r' : Reader}
  {buf : Ibuf} {bufs : List Ibuf} {fd fd' : Option Fd} {data rest rest' later : List Byte}
  {R R' laterT : List (Byte × Option Fd)}

/-! ## Headers -/

theorem length_hdrBytes (hdr : ImsgHdr) : hdr.bytes.length = imsgHeaderSize := rfl

/-- A number is read as it was written. -/
theorem word_bytes (v : BitVec 32) :
    BitVec.ofNat 32
      ((BitVec.ofNat 8 v.toNat).toNat + (BitVec.ofNat 8 (v.toNat / 2 ^ 8)).toNat * 2 ^ 8 +
      (BitVec.ofNat 8 (v.toNat / 2 ^ 16)).toNat * 2 ^ 16 +
      (BitVec.ofNat 8 (v.toNat / 2 ^ 24)).toNat * 2 ^ 24) = v := by
  apply BitVec.eq_of_toNat_eq
  have hlt := v.isLt
  simp only [BitVec.toNat_ofNat]
  omega

/-- So is a header. -/
theorem hdrOf_bytes (hdr : ImsgHdr) (data : List Byte) : hdrOf (hdr.bytes ++ data) = hdr := by
  obtain ⟨type, len, peerid, pid⟩ := hdr
  simp only [hdrOf, ImsgHdr.mk.injEq]
  exact ⟨word_bytes type, word_bytes len, word_bytes peerid, word_bytes pid⟩

theorem hdrOf_take (hdr : ImsgHdr) (data : List Byte) :
    hdrOf ((hdr.bytes ++ data).take imsgHeaderSize) = hdr := by
  rw [List.take_left' (length_hdrBytes hdr)]
  have h := hdrOf_bytes hdr []
  rwa [List.append_nil] at h

/-- The length with the mark of a descriptor. -/
def markLen (len : BitVec 32) (fd : Option Fd) : BitVec 32 :=
  if fd.isSome then len ||| imsgFdMark else len

theorem getLsbD_mark (i : ℕ) : imsgFdMark.getLsbD i = decide (i = 31) := by
  have hpow : imsgFdMark = BitVec.twoPow 32 31 := rfl
  rw [hpow, BitVec.getLsbD_twoPow]
  simp [eq_comm]

theorem getLsbD_len (hn : n < 2 ^ 31) : (BitVec.ofNat 32 n).getLsbD 31 = false := by
  rw [BitVec.getLsbD_ofNat, Nat.testBit_lt_two_pow hn]
  rfl

theorem unmark_len (hn : n < 2 ^ 31) (fd : Option Fd) :
    (markLen (BitVec.ofNat 32 n) fd &&& ~~~imsgFdMark) = BitVec.ofNat 32 n := by
  apply BitVec.eq_of_getLsbD_eq
  intro i hi
  have hbit := getLsbD_len hn
  rw [BitVec.getLsbD_and, BitVec.getLsbD_not, getLsbD_mark, decide_eq_true hi, markLen]
  by_cases h31 : i = 31
  · subst h31
    simp only [decide_true, Bool.not_true, Bool.and_false, hbit]
  · split_ifs
    · rw [BitVec.getLsbD_or, getLsbD_mark]
      simp [h31]
    · simp [h31]

theorem mark_len (hn : n < 2 ^ 31) (fd : Option Fd) :
    (markLen (BitVec.ofNat 32 n) fd &&& imsgFdMark ≠ 0) ↔ fd.isSome = true := by
  have hbit := getLsbD_len hn
  rw [markLen]
  split_ifs with hfd
  · refine iff_of_true (fun hzero => ?_) hfd
    have h31 : ((BitVec.ofNat 32 n ||| imsgFdMark) &&& imsgFdMark).getLsbD 31 = false := by
      rw [hzero]
      exact BitVec.getLsbD_zero
    rw [BitVec.getLsbD_and, BitVec.getLsbD_or, getLsbD_mark] at h31
    simp at h31
  · refine iff_of_false (fun hne => hne ?_) hfd
    apply BitVec.eq_of_getLsbD_eq
    intro i _
    rw [BitVec.getLsbD_and, getLsbD_mark]
    refine Eq.trans ?_ BitVec.getLsbD_zero.symm
    by_cases h31 : i = 31
    · rw [h31, hbit, Bool.false_and]
    · rw [decide_eq_false h31, Bool.and_false]

/-- The length of a message never reaches the mark of a descriptor. -/
theorem MaxSize.lt (hsize : MaxSize maxsize) : maxsize < 2 ^ 31 := by
  cases hsize with
  | init => decide
  | set max hset =>
    rw [imsgbufSetMaxsize] at hset
    split_ifs at hset with hbig hmark
    rw [Option.some.injEq] at hset
    subst hset
    rw [not_not] at hmark
    have hbit : ((max + BitVec.ofNat 32 imsgHeaderSize) &&& imsgFdMark).getLsbD 31 = false := by
      rw [hmark]
      exact BitVec.getLsbD_zero
    rw [BitVec.getLsbD_and, getLsbD_mark, decide_eq_true rfl, Bool.and_true] at hbit
    have hmsb : (max + BitVec.ofNat 32 imsgHeaderSize).msb = false := by
      rw [BitVec.msb_eq_getLsbD_last]
      exact hbit
    have hlt := BitVec.msb_eq_false_iff_two_mul_lt.1 hmsb
    omega

/-! ## Messages as bytes -/

/-- The header of a message on its way. -/
def Imsg.hdr (m : Imsg) : ImsgHdr := ⟨m.type, markLen m.len m.fd, m.peerid, m.pid⟩

/-- The bytes of a message. -/
def wire (m : Imsg) : List Byte := m.hdr.bytes ++ m.data

/-- The bytes with the descriptor. -/
def tagWire (m : Imsg) : List (Byte × Option Fd) := tagFirst m.fd (wire m)

/-- The length is right, and not too big. -/
structure Fits (maxsize : ℕ) (m : Imsg) : Prop where
  len : m.len = BitVec.ofNat 32 (wire m).length
  le : (wire m).length ≤ maxsize

theorem length_wire (m : Imsg) : (wire m).length = imsgHeaderSize + m.data.length := by
  rw [wire, List.length_append, length_hdrBytes]

theorem header_le (m : Imsg) : imsgHeaderSize ≤ (wire m).length := by
  rw [length_wire]
  exact Nat.le_add_right _ _

theorem wire_ne_nil (m : Imsg) : wire m ≠ [] := by
  apply List.ne_nil_of_length_pos
  have hle := header_le m
  have hpos : 0 < imsgHeaderSize := by decide
  omega

theorem Fits.unmark (hm : Fits maxsize m) (hmax : maxsize < 2 ^ 31) :
    m.hdr.len &&& ~~~imsgFdMark = m.len := by
  have hle := hm.le
  rw [Imsg.hdr, hm.len]
  exact unmark_len (by omega) m.fd

/-- `imsg_parse_hdr` for the header of a message. -/
theorem imsgParseHdr_eq (hm : Fits maxsize m) (hmax : maxsize < 2 ^ 31)
    (hbuf : data = (wire m ++ rest).take imsgHeaderSize) (fd : Option Fd) :
    imsgParseHdr maxsize data fd = some (⟨[], (wire m).length, if m.fd.isSome then fd else none⟩,
      if m.fd.isSome then none else fd) := by
  have hle := hm.le
  have hhead := header_le m
  have hhdr : hdrOf data = m.hdr := by
    rw [hbuf, wire, List.append_assoc]
    exact hdrOf_take _ _
  have hlen : (m.hdr.len &&& ~~~imsgFdMark).toNat = (wire m).length := by
    rw [hm.unmark hmax, hm.len, BitVec.toNat_ofNat, Nat.mod_eq_of_lt (by omega)]
  have hmark : m.hdr.len &&& imsgFdMark ≠ 0 ↔ m.fd.isSome = true := by
    rw [Imsg.hdr, hm.len]
    exact mark_len (by omega) m.fd
  rw [imsgParseHdr, hhdr, hlen, if_neg (by omega)]
  by_cases hfd : m.fd.isSome = true
  · rw [if_pos (hmark.2 hfd), if_pos hfd, if_pos hfd]
  · rw [if_neg (fun h => hfd (hmark.1 h)), if_neg hfd, if_neg hfd]

/-- The message in a buffer with all of its bytes. -/
theorem imsgOf_wire (hm : Fits maxsize m) (hmax : maxsize < 2 ^ 31) (hdata : buf.data = wire m) :
    imsgOf buf = { m with fd := buf.fd } := by
  have hhdr : hdrOf buf.data = m.hdr := by
    rw [hdata]
    exact hdrOf_bytes _ _
  rw [imsgOf, hhdr, hm.unmark hmax, hdata, wire, List.drop_left' (length_hdrBytes _)]
  rfl

/-! ## Queueing -/

theorem ibufAdd_some {b b' : Ibuf} (hle : b.data.length ≤ b.max) (h : ibufAdd b data = some b') :
    b' = { b with data := b.data ++ data } ∧ b'.data.length ≤ b.max := by
  rw [ibufAdd] at h
  split_ifs at h with hempty hfull
  · rw [List.length_eq_zero_iff] at hempty
    rw [Option.some.injEq] at h
    subst h hempty
    exact ⟨by rw [List.append_nil], hle⟩
  · rw [Option.some.injEq] at h
    subst h
    refine ⟨rfl, ?_⟩
    dsimp only
    rw [List.length_append]
    omega

theorem ibufAdds_some (parts : List (List Byte)) :
    ∀ b b' : Ibuf, b.data.length ≤ b.max → parts.foldlM ibufAdd b = some b' →
      b' = { b with data := b.data ++ parts.flatten } ∧ b'.data.length ≤ b.max := by
  induction parts with
  | nil =>
    intro b b' hle h
    have hsame : b = b' := Option.some.inj h
    subst hsame
    exact ⟨by rw [List.flatten_nil, List.append_nil], hle⟩
  | cons part parts ih =>
    intro b b' hle h
    rw [List.foldlM_cons, Option.bind_eq_bind, Option.bind_eq_some_iff] at h
    obtain ⟨b₁, hadd, hrest⟩ := h
    obtain ⟨hb₁, hle₁⟩ := ibufAdd_some hle hadd
    have hmax : b₁.max = b.max := by rw [hb₁]
    obtain ⟨hb', hle'⟩ := ih b₁ b' (by rwa [hmax]) hrest
    refine ⟨?_, by rwa [hmax] at hle'⟩
    rw [hb', hb₁, List.flatten_cons, List.append_assoc]

/-- What the sender asks for. -/
def sentMsg (self type id pid : BitVec 32) (fd : Option Fd) (parts : List (List Byte)) : Imsg :=
  ⟨type, BitVec.ofNat 32 (imsgHeaderSize + parts.flatten.length), id, if pid = 0 then self else pid,
    parts.flatten, fd⟩

variable (maxsize) in
theorem imsgClose_data (hdr : ImsgHdr) (data : List Byte) (fd : Option Fd) :
    (imsgClose ⟨hdr.bytes ++ data, maxsize, fd⟩).data =
      ImsgHdr.bytes ⟨hdr.type, markLen (BitVec.ofNat 32 (imsgHeaderSize + data.length)) fd,
        hdr.peerid, hdr.pid⟩ ++ data := by
  have hlen : (hdr.bytes ++ data).length = imsgHeaderSize + data.length := by
    rw [List.length_append, length_hdrBytes]
  rw [imsgClose]
  dsimp only
  rw [hlen, ← markLen]
  rfl

/-- The bytes of a message that is queued. -/
theorem imsgMsg_wire {self type id pid : BitVec 32} {datalen : ℕ} {parts : List (List Byte)}
    (h : imsgMsg maxsize self type id pid datalen fd parts = some buf) :
    buf.data = wire (sentMsg self type id pid fd parts) ∧ buf.fd = fd ∧
      Fits maxsize (sentMsg self type id pid fd parts) := by
  rw [imsgMsg, Option.bind_eq_bind, Option.bind_eq_some_iff] at h
  obtain ⟨b, hcreate, h⟩ := h
  rw [Option.bind_eq_some_iff] at h
  obtain ⟨b', hadds, h⟩ := h
  have hbuf : imsgClose { b' with fd := fd } = buf := Option.some.inj h
  rw [imsgCreate] at hcreate
  by_cases hbig : maxsize < (datalen + imsgHeaderSize) % 2 ^ 64
  · rw [if_pos hbig] at hcreate
    cases hcreate
  rw [if_neg hbig] at hcreate
  obtain ⟨hb, hle⟩ := ibufAdd_some (Nat.zero_le _) hcreate
  rw [List.nil_append] at hb
  have hmax : b.max = maxsize := by rw [hb]
  obtain ⟨hb', hle'⟩ := ibufAdds_some parts b b' (by rwa [hmax]) hadds
  subst hb hb'
  subst hbuf
  have hwire := imsgClose_data maxsize
    ⟨type, 0, id, if pid = 0 then self else pid⟩ parts.flatten fd
  -- the data follows the header
  refine ⟨hwire, rfl, ?_, ?_⟩
  · rw [length_wire]
    rfl
  · rw [length_wire]
    dsimp only at hle'
    rwa [List.length_append, length_hdrBytes] at hle'

/-! ## Descriptors in a stream -/

theorem map_fst_tagFirst (fd : Option Fd) (data : List Byte) :
    (tagFirst fd data).map Prod.fst = data := by
  cases data with
  | nil => rfl
  | cons b rest => simp [tagFirst, Function.comp_def]

theorem length_tagFirst (fd : Option Fd) (data : List Byte) :
    (tagFirst fd data).length = data.length := by
  rw [← List.length_map (f := Prod.fst), map_fst_tagFirst]

/-- The bytes behind the first one have no descriptor. -/
theorem tagFirst_append (fd : Option Fd) (hdata : data ≠ []) (rest : List Byte) :
    tagFirst fd (data ++ rest) = tagFirst fd data ++ rest.map fun b => (b, none) := by
  cases data with
  | nil => exact absurd rfl hdata
  | cons b data => simp [tagFirst]

theorem tagFirst_none (data : List Byte) : tagFirst none data = data.map fun b => (b, none) := by
  cases data with
  | nil => rfl
  | cons b rest => rfl

theorem filterMap_untagged (data : List Byte) :
    (data.map fun b => (b, (none : Option Fd))).filterMap Prod.snd = [] := by
  rw [List.filterMap_map, List.filterMap_eq_nil_iff]
  exact fun _ _ => rfl

theorem map_fst_untagged (data : List Byte) :
    (data.map fun b => (b, (none : Option Fd))).map Prod.fst = data := by
  rw [← tagFirst_none, map_fst_tagFirst]

theorem filterMap_tagFirst (fd : Option Fd) (hdata : data ≠ []) :
    (tagFirst fd data).filterMap Prod.snd = fd.toList := by
  cases data with
  | nil => exact absurd rfl hdata
  | cons b rest =>
    have hrest := filterMap_untagged rest
    cases fd with
    | none => exact hrest
    | some f => exact congrArg (List.cons f) hrest

theorem tagFirst_inj {fd fd' : Option Fd} (hdata : data ≠ [])
    (h : tagFirst fd data = tagFirst fd' data) : fd = fd' := by
  cases data with
  | nil => exact absurd rfl hdata
  | cons b rest =>
    rw [tagFirst, tagFirst, List.cons.injEq, Prod.mk.injEq] at h
    exact h.1.2

/-! ## Writing -/

/-- The bytes of a buffer that is queued. -/
def Ibuf.tagged (buf : Ibuf) : List (Byte × Option Fd) := tagFirst buf.fd buf.data

/-- What is left of buffers without descriptors, when only bytes of these are sent. -/
theorem msgbufDrain_stream (hrest : ∀ b ∈ bufs, b.data ≠ []) (os : List Ibuf) :
    ∀ n, (∀ b ∈ os, b.fd = none ∧ b.data ≠ []) → n ≤ (os.flatMap Ibuf.data).length →
      (msgbufDrain n (os ++ bufs)).flatMap Ibuf.tagged =
        (((os.flatMap Ibuf.data).drop n).map fun b => (b, none)) ++ bufs.flatMap Ibuf.tagged ∧
      ∀ b ∈ msgbufDrain n (os ++ bufs), b.data ≠ [] := by
  induction os with
  | nil =>
    intro n _ hn
    have hn0 : n = 0 := Nat.le_zero.1 hn
    subst hn0
    -- nothing was sent, and no buffer is empty
    have hkeep : msgbufDrain 0 bufs = bufs := by
      cases bufs with
      | nil => rfl
      | cons b rest =>
        have hpos := List.length_pos_of_ne_nil (hrest b (List.mem_cons_self ..))
        rw [msgbufDrain, if_neg (by omega), List.drop_zero]
    rw [List.nil_append, hkeep]
    exact ⟨rfl, hrest⟩
  | cons b os ih =>
    intro n hos hn
    obtain ⟨hfd, hb⟩ := hos b (List.mem_cons_self ..)
    have hos' : ∀ b ∈ os, b.fd = none ∧ b.data ≠ [] := fun c hc => hos c (List.mem_cons_of_mem b hc)
    rw [List.flatMap_cons, List.length_append] at hn
    rw [List.cons_append, msgbufDrain]
    split_ifs with hall
    -- the buffer is sent whole, and goes
    · obtain ⟨hstream, hne⟩ := ih (n - b.data.length) hos' (by omega)
      refine ⟨?_, hne⟩
      rw [hstream, List.flatMap_cons, List.drop_append, List.drop_eq_nil_of_le hall,
        List.nil_append]
    -- the buffer is cut: the rest of it stays at the head
    · rw [Nat.not_le] at hall
      have htagged : ∀ c ∈ os, c.tagged = c.data.map fun b => (b, none) := by
        intro c hc
        rw [Ibuf.tagged, (hos' c hc).1, tagFirst_none]
      refine ⟨?_, fun c hc => ?_⟩
      · rw [List.flatMap_cons, List.flatMap_append, Ibuf.tagged, hfd, tagFirst_none,
          List.flatMap_congr htagged, ← List.map_flatMap, List.flatMap_cons, List.drop_append,
          Nat.sub_eq_zero_of_le hall.le, List.drop_zero, List.map_append, List.append_assoc]
      · rw [List.mem_cons, List.mem_append] at hc
        rcases hc with rfl | hc | hc
        · exact List.ne_nil_of_length_pos (by rw [List.length_drop]; omega)
        · exact (hos' c hc).2
        · exact hrest c hc

/-- `msgbuf_write` moves bytes with their descriptors from the queue to the socket. -/
theorem msgbufWrite_stream (hbufs : ∀ b ∈ bufs, b.data ≠ []) (hpos : 0 < n)
    (hn : n ≤ ((offered bufs).flatMap Ibuf.data).length) :
    (msgbufWrite n bufs).1 ++ (msgbufWrite n bufs).2.flatMap Ibuf.tagged =
      bufs.flatMap Ibuf.tagged ∧ ∀ b ∈ (msgbufWrite n bufs).2, b.data ≠ [] := by
  cases bufs with
  | nil => exact absurd hn (by simp [offered]; omega)
  | cons buf rest =>
    -- the buffers that are offered, and those behind them
    have hprefix : ((rest.take (iovMax - 1)).takeWhile fun b => b.fd.isNone) <+: rest :=
      (List.takeWhile_prefix _).trans (List.take_prefix _ _)
    have hnone : ∀ b ∈ (rest.take (iovMax - 1)).takeWhile (fun b => b.fd.isNone), b.fd = none := by
      intro b hb
      have h := List.all_eq_true.1 List.all_takeWhile b hb
      simpa using h
    rw [msgbufWrite]
    rw [offered] at hn ⊢
    generalize (rest.take (iovMax - 1)).takeWhile (fun b => b.fd.isNone) = os at hprefix hnone hn ⊢
    obtain ⟨behind, rfl⟩ := hprefix
    have hbuf : buf.data ≠ [] := hbufs buf (List.mem_cons_self ..)
    have hne : ∀ b ∈ os ++ behind, b.data ≠ [] := fun b hb => hbufs b (List.mem_cons_of_mem buf hb)
    have hos : ∀ b ∈ ({ buf with fd := none } : Ibuf) :: os, b.fd = none ∧ b.data ≠ [] := by
      intro b hb
      rcases List.mem_cons.1 hb with rfl | hb
      · exact ⟨rfl, hbuf⟩
      · exact ⟨hnone b hb, hne b (List.mem_append_left _ hb)⟩
    have hdata : (({ buf with fd := none } : Ibuf) :: os).flatMap Ibuf.data =
        (buf :: os).flatMap Ibuf.data := rfl
    obtain ⟨hdrain, hleft⟩ := msgbufDrain_stream
      (fun b hb => hne b (List.mem_append_right _ hb)) _ n hos (by rwa [hdata])
    rw [hdata] at hdrain
    refine ⟨?_, hleft⟩
    -- `sendmsg` takes one descriptor, that of the first buffer
    have htagged : ∀ c ∈ os, c.tagged = c.data.map fun b => (b, none) := by
      intro c hc
      rw [Ibuf.tagged, hnone c hc, tagFirst_none]
    -- at least one byte was sent, and the descriptor went with it
    have htake : ((buf :: os).flatMap Ibuf.data).take n ≠ [] := by
      apply List.ne_nil_of_length_pos
      rw [List.length_take]
      omega
    have hsplit := tagFirst_append buf.fd htake (((buf :: os).flatMap Ibuf.data).drop n)
    rw [List.take_append_drop] at hsplit
    have hall : tagFirst buf.fd ((buf :: os).flatMap Ibuf.data) =
        buf.tagged ++ os.flatMap Ibuf.tagged := by
      rw [List.flatMap_cons, tagFirst_append buf.fd hbuf, List.map_flatMap,
        ← List.flatMap_congr htagged]
      rfl
    dsimp only [dropFd, headFd]
    rw [List.cons_append] at hdrain
    rw [hdrain, ← List.append_assoc, ← hsplit, hall, List.flatMap_cons, List.flatMap_append,
      List.append_assoc]

/-! ## Reading -/

/-- The bytes of the message that is being read. -/
def pendData (r : Reader) : List Byte := r.rpmsg.elim [] Ibuf.data

/-- The same with the descriptor. -/
def pendTags (r : Reader) : List (Byte × Option Fd) := r.rpmsg.elim [] Ibuf.tagged

/-- What is not yet read are messages, and the first of them may have been begun. -/
structure Parsing (r : Reader) (rest later : List Byte) (rem : List Imsg) : Prop where
  stream : pendData r ++ rest ++ later = rem.flatMap wire
  begun : ∀ buf, r.rpmsg = some buf → ∃ m rem', rem = m :: rem' ∧ buf.max = (wire m).length ∧
    buf.data ≠ [] ∧ buf.data.length < buf.max

/-- The same stream with descriptors; `fd` is the one that was not yet taken. -/
structure Tagged (r : Reader) (R laterT : List (Byte × Option Fd)) (rem : List Imsg)
    (fd : Option Fd) : Prop where
  fd : R.filterMap Prod.snd = fd.toList
  stream : pendTags r ++ R ++ laterT = rem.flatMap tagWire

/-- A message that was begun or is begun now. -/
structure Opened (r : Reader) (rest later : List Byte) (fd : Option Fd) (m : Imsg)
    (rem' : List Imsg) (buf : Ibuf) (fd' : Option Fd) : Prop where
  max : buf.max = (wire m).length
  data : buf.data = pendData r
  lt : buf.data.length < buf.max
  stream : buf.data ++ rest ++ later = wire m ++ rem'.flatMap wire
  fds : r.rpmsg = some buf ∧ buf.data ≠ [] ∧ fd' = fd ∨
    r.rpmsg = none ∧ imsgHeaderSize ≤ rest.length ∧
      buf.fd = (if m.fd.isSome then fd else none) ∧ fd' = if m.fd.isSome then none else fd

/-- The loop goes on with the first message, if it has the header. -/
theorem nextMsg_eq (hp : Parsing r rest later rem) (hfits : ∀ m ∈ rem, Fits maxsize m)
    (hmax : maxsize < 2 ^ 31) (hhead : r.rpmsg = none → imsgHeaderSize ≤ rest.length)
    (fd : Option Fd) :
    ∃ m rem' buf fd', rem = m :: rem' ∧ nextMsg maxsize r.rpmsg rest fd = .msg buf fd' ∧
      Opened r rest later fd m rem' buf fd' := by
  have hstream := hp.stream
  cases hr : r.rpmsg with
  -- a message is under way
  | some buf =>
    obtain ⟨m, rem', rfl, hbmax, hne, hlt⟩ := hp.begun buf hr
    have hpend : pendData r = buf.data := by rw [pendData, hr]; rfl
    refine ⟨m, rem', buf, fd, rfl, rfl, ⟨hbmax, hpend.symm, hlt, ?_, .inl ⟨hr, hne, rfl⟩⟩⟩
    rw [hpend, List.flatMap_cons] at hstream
    exact hstream
  | none =>
    -- a new message: its header is all there
    have hlen := hhead hr
    have hpend : pendData r = [] := by rw [pendData, hr]; rfl
    rw [hpend, List.nil_append] at hstream
    cases rem with
    | nil =>
      -- there are bytes, so there is a message
      have hzero := congrArg List.length hstream
      rw [List.flatMap_nil, List.length_nil, List.length_append] at hzero
      have hpos : 0 < imsgHeaderSize := by decide
      omega
    | cons m rem' =>
      rw [List.flatMap_cons] at hstream
      have hbuf : rest.take imsgHeaderSize =
          (wire m ++ rem'.flatMap wire).take imsgHeaderSize := by
        rw [← hstream, List.take_append_of_le_length hlen]
      have hparse := imsgParseHdr_eq (hfits m (List.mem_cons_self ..)) hmax hbuf fd
      refine ⟨m, rem', ⟨[], (wire m).length, if m.fd.isSome then fd else none⟩, _, rfl, ?_,
        ⟨rfl, hpend.symm, ?_, hstream, .inr ⟨hr, hlen, rfl, rfl⟩⟩⟩
      · rw [nextMsg, if_neg (by omega), hparse]
      · exact List.length_pos_of_ne_nil (wire_ne_nil m)

/-- A message that is complete now. -/
theorem Opened.complete {buf : Ibuf} (ho : Opened r rest later fd m rem' buf fd')
    (hle : ibufLeft buf ≤ rest.length) :
    (fill buf rest).data = wire m ∧ ibufLeft (fill buf rest) = 0 ∧
      rest.drop (ibufLeft buf) ++ later = rem'.flatMap wire := by
  have hmax := ho.max
  have hlt := ho.lt
  have hstream := ho.stream
  rw [← List.take_append_drop (ibufLeft buf) rest, List.append_assoc, List.append_assoc,
    ← List.append_assoc] at hstream
  have hlen : (buf.data ++ rest.take (ibufLeft buf)).length = (wire m).length := by
    rw [List.length_append, List.length_take, Nat.min_eq_left hle, ← hmax, ibufLeft]
    omega
  obtain ⟨hwire, hrest⟩ := List.append_inj hstream hlen
  have hdata : (fill buf rest).data = wire m := by
    rw [fill, Nat.min_eq_left hle]
    exact hwire
  refine ⟨hdata, ?_, hrest⟩
  rw [ibufLeft, hdata]
  exact Nat.sub_eq_zero_of_le hmax.le

/-- A message that needs more bytes. -/
theorem Opened.incomplete {buf : Ibuf} (ho : Opened r rest later fd m rem' buf fd')
    (hrest : rest ≠ []) (hlt : rest.length < ibufLeft buf) :
    (fill buf rest).data = buf.data ++ rest ∧ ibufLeft (fill buf rest) ≠ 0 ∧
      Parsing (put r (fill buf rest)) [] later (m :: rem') := by
  have hstream := ho.stream
  have hdata : (fill buf rest).data = buf.data ++ rest := by
    rw [fill, Nat.min_eq_right hlt.le, List.take_length]
  have hleft : ibufLeft (fill buf rest) ≠ 0 := by
    rw [ibufLeft, hdata, List.length_append]
    rw [ibufLeft] at hlt
    have hfill : (fill buf rest).max = buf.max := rfl
    omega
  have hput : (put r (fill buf rest)).rpmsg = some (fill buf rest) := by
    rw [put, if_neg hleft]
  refine ⟨hdata, hleft, ⟨?_, fun b hb => ?_⟩⟩
  · rw [pendData, hput, Option.elim_some, hdata, List.append_nil, hstream, List.flatMap_cons]
  · rw [hput, Option.some.injEq] at hb
    subst hb
    refine ⟨m, rem', rfl, ho.max, ?_, ?_⟩
    · rw [hdata]
      exact List.append_ne_nil_of_right_ne_nil _ hrest
    · rw [ibufLeft] at hleft
      omega

/-! ## Descriptors -/

/-- The bytes of the message that is read now, from the first one that is not in the buffer. -/
theorem Opened.tags {buf : Ibuf} (ho : Opened r rest later fd m rem' buf fd')
    (hR : R.map Prod.fst = rest) (ht : Tagged r R laterT (m :: rem') fd) (hk0 : 0 < k)
    (hk : k ≤ ibufLeft buf) (hkR : k ≤ R.length) :
    buf.fd = m.fd ∧ (R.drop k).filterMap Prod.snd = fd'.toList ∧
      tagFirst buf.fd (buf.data ++ rest.take k) = buf.tagged ++ R.take k ∧
      ∀ i x, (R.take k)[i]? = some x → x.2 ≠ none → i + imsgHeaderSize ≤ R.length := by
  have hstream := ht.stream
  have hfd := ht.fd
  have hlen : buf.data.length + k ≤ (wire m).length := by
    rw [← ho.max]
    have hlt := ho.lt
    rw [ibufLeft] at hk
    omega
  have hrestk : rest.take k = (R.take k).map Prod.fst := by rw [← hR, List.map_take]
  have hRlen : rest.length = R.length := by rw [← hR, List.length_map]
  rw [List.flatMap_cons] at hstream
  rcases ho.fds with ⟨hr, hne, rfl⟩ | ⟨hr, hhead, hbuf, rfl⟩
  · -- the first byte was read before
    have hpend : pendTags r = buf.tagged := by rw [pendTags, hr]; rfl
    have htake := congrArg (List.take (buf.data.length + k)) hstream
    have hlenT : buf.tagged.length = buf.data.length := length_tagFirst _ _
    rw [hpend, List.append_assoc, ← hlenT, List.take_length_add_append,
      List.take_append_of_le_length hkR, hlenT, List.take_append_of_le_length (by
        rw [tagWire, length_tagFirst]; exact hlen)] at htake
    -- the bytes in the buffer and the new ones are the first bytes of the message
    have hw : tagWire m = tagFirst m.fd ((wire m).take buf.data.length) ++
        ((wire m).drop buf.data.length).map fun b => (b, none) := by
      rw [tagWire, ← tagFirst_append, List.take_append_drop]
      apply List.ne_nil_of_length_pos
      have hpos := List.length_pos_of_ne_nil hne
      rw [List.length_take]
      omega
    have hlenW : (tagFirst m.fd ((wire m).take buf.data.length)).length = buf.data.length := by
      rw [length_tagFirst, List.length_take]
      omega
    have htake' : (tagWire m).take (buf.data.length + k) =
        tagFirst m.fd ((wire m).take buf.data.length) ++
          ((((wire m).drop buf.data.length).take k).map fun b => (b, none)) := by
      rw [hw]
      nth_rewrite 1 [← hlenW]
      rw [List.take_length_add_append, List.map_take]
    rw [htake'] at htake
    obtain ⟨hbufT, hRT⟩ := List.append_inj htake (by rw [hlenT, hlenW])
    have hdata : buf.data = (wire m).take buf.data.length := by
      have h := congrArg (List.map Prod.fst) hbufT
      rwa [Ibuf.tagged, map_fst_tagFirst, map_fst_tagFirst] at h
    have huntag : (R.take k).filterMap Prod.snd = [] := by
      rw [hRT]
      exact filterMap_untagged _
    refine ⟨?_, ?_, ?_, fun i x hx hne => ?_⟩
    · rw [Ibuf.tagged, ← hdata] at hbufT
      exact tagFirst_inj hne hbufT
    · rw [← hfd, ← List.take_append_drop k R, List.filterMap_append, huntag, List.nil_append,
        List.take_append_drop]
    · rw [tagFirst_append _ hne, Ibuf.tagged, hrestk, hRT, map_fst_untagged]
    · rw [hRT] at hx
      simp only [List.getElem?_map, Option.map_eq_some_iff] at hx
      obtain ⟨b, _, rfl⟩ := hx
      exact absurd rfl hne
  · -- the header came with the first byte
    have hpend : pendTags r = [] := by rw [pendTags, hr]; rfl
    have hdata : buf.data = [] := by rw [ho.data, pendData, hr]; rfl
    rw [hdata, List.length_nil, Nat.zero_add] at hlen
    rw [hpend, List.nil_append] at hstream
    have htake := congrArg (List.take k) hstream
    rw [List.take_append_of_le_length hkR, List.take_append_of_le_length (by
      rw [tagWire, length_tagFirst]; exact hlen)] at htake
    have hsome : (wire m).take k ≠ [] := by
      apply List.ne_nil_of_length_pos
      rw [List.length_take]
      omega
    have hw : R.take k = tagFirst m.fd ((wire m).take k) := by
      rw [htake, tagWire]
      nth_rewrite 1 [← List.take_append_drop k (wire m)]
      rw [tagFirst_append _ hsome]
      have hlenk : (tagFirst m.fd ((wire m).take k)).length = k := by
        rw [length_tagFirst, List.length_take]
        omega
      nth_rewrite 1 [← hlenk]
      exact List.take_left
    have hsplit : m.fd.toList ++ (R.drop k).filterMap Prod.snd = fd.toList := by
      rw [← hfd, ← List.take_append_drop k R, List.filterMap_append, List.take_append_drop, hw,
        filterMap_tagFirst _ hsome]
    have hnew : buf.fd = m.fd ∧ (R.drop k).filterMap Prod.snd =
        (if m.fd.isSome then none else fd : Option Fd).toList := by
      rw [hbuf]
      cases hmf : m.fd with
      | none =>
        rw [hmf] at hsplit
        exact ⟨rfl, hsplit⟩
      | some f =>
        rw [hmf] at hsplit
        cases fd with
        | none => cases hsplit
        | some g =>
          rw [Option.toList_some, Option.toList_some, List.singleton_append, List.cons.injEq]
            at hsplit
          exact ⟨congrArg some hsplit.1.symm, hsplit.2⟩
    refine ⟨hnew.1, hnew.2, ?_, fun i x hx hne => ?_⟩
    · rw [Ibuf.tagged, hdata, List.nil_append, hnew.1, hrestk, hw, map_fst_tagFirst]
      rfl
    · -- only the first byte has a descriptor
      have hi : i = 0 := by
        by_contra hi
        rw [hw] at hx
        obtain ⟨j, rfl⟩ := Nat.exists_eq_succ_of_ne_zero hi
        cases hwk : (wire m).take k with
        | nil => exact hsome hwk
        | cons b rest' =>
          rw [hwk, tagFirst, List.getElem?_cons_succ, List.getElem?_map,
            Option.map_eq_some_iff] at hx
          obtain ⟨c, _, rfl⟩ := hx
          exact hne rfl
      rw [hi, ← hRlen, Nat.zero_add]
      exact hhead

/-! ## The loop -/

/-- A message without its descriptor. -/
def Imsg.bare (m : Imsg) : Imsg := { m with fd := none }

/-- What the loop has read: the messages `done`, which are in the buffers `new`. -/
structure Looped (r : Reader) (rest later : List Byte) (fd : Option Fd) (rem : List Imsg)
    (r' : Reader) (rest' : List Byte) (fd' : Option Fd) (done rem' : List Imsg)
    (new : List Ibuf) : Prop where
  split : rem = done ++ rem'
  parsing : Parsing r' rest' later rem'
  rbufs : r'.rbufs = r.rbufs ++ new
  closed : r'.closed = r.closed
  bare : new.map (fun buf => (imsgOf buf).bare) = done.map Imsg.bare
  idle : r'.rpmsg = none → rest'.length < imsgHeaderSize
  busy : r'.rpmsg ≠ none → rest' = []
  tags : ∀ R laterT, R.map Prod.fst = rest → Tagged r R laterT rem fd →
    ∃ C R', R = C ++ R' ∧ R'.map Prod.fst = rest' ∧ Tagged r' R' laterT rem' fd' ∧
      new.map imsgOf = done ∧
      ∀ i x, C[i]? = some x → x.2 ≠ none → i + imsgHeaderSize ≤ R.length

/-- The loop stops. -/
theorem Looped.refl (hp : Parsing r rest later rem)
    (hidle : r.rpmsg = none → rest.length < imsgHeaderSize) (hbusy : r.rpmsg ≠ none → rest = []) :
    Looped r rest later fd rem r rest fd [] rem [] := by
  refine ⟨rfl, hp, (List.append_nil _).symm, rfl, rfl, hidle, hbusy, fun R laterT hR ht => ?_⟩
  refine ⟨[], R, rfl, hR, ht, rfl, fun i x hx => ?_⟩
  rw [List.getElem?_nil] at hx
  cases hx

theorem Opened.pendTags_eq (ho : Opened r rest later fd m rem' buf fd') :
    pendTags r = buf.tagged := by
  rcases ho.fds with ⟨hr, _, _⟩ | ⟨hr, _, _, _⟩
  · rw [pendTags, hr]
    rfl
  · have hdata : buf.data = [] := by rw [ho.data, pendData, hr]; rfl
    rw [pendTags, hr, Ibuf.tagged, hdata]
    rfl

theorem Opened.left_pos (ho : Opened r rest later fd m rem' buf fd') : 0 < ibufLeft buf := by
  have hlt := ho.lt
  rw [ibufLeft]
  omega

/-- A message is complete, and the loop goes on. -/
theorem Looped.cons {rem'' : List Imsg} {fd'' : Option Fd} {new : List Ibuf}
    (ho : Opened r rest later fd m rem' buf fd') (hm : Fits maxsize m) (hmax : maxsize < 2 ^ 31)
    (hle : ibufLeft buf ≤ rest.length)
    (hl : Looped (put r (fill buf rest)) (rest.drop (ibufLeft buf)) later fd' rem' r' rest' fd''
      done rem'' new) :
    Looped r rest later fd (m :: rem') r' rest' fd'' (m :: done) rem'' (fill buf rest :: new) := by
  obtain ⟨hdata, hleft, _⟩ := ho.complete hle
  have hput : put r (fill buf rest) =
      { r with rpmsg := none, rbufs := r.rbufs ++ [fill buf rest] } := if_pos hleft
  have himsg := imsgOf_wire hm hmax hdata
  refine ⟨?_, hl.parsing, ?_, ?_, ?_, hl.idle, hl.busy, fun R laterT hR ht => ?_⟩
  · rw [hl.split, List.cons_append]
  · rw [hl.rbufs, hput, List.append_assoc, List.singleton_append]
  · rw [hl.closed, hput]
  · rw [List.map_cons, List.map_cons, hl.bare, himsg]
    rfl
  · have hRlen : rest.length = R.length := by rw [← hR, List.length_map]
    obtain ⟨hfd, hfilter, hjoin, hhead⟩ := ho.tags hR ht ho.left_pos le_rfl (hRlen ▸ hle)
    -- the bytes of the message are behind, with its descriptor
    have hwire : tagWire m = buf.tagged ++ R.take (ibufLeft buf) := by
      have hw : buf.data ++ rest.take (ibufLeft buf) = wire m := by
        rw [← hdata, fill, Nat.min_eq_left hle]
      rw [← hjoin, hw, hfd, tagWire]
    have hstream := ht.stream
    rw [ho.pendTags_eq, List.flatMap_cons, hwire] at hstream
    nth_rewrite 1 [← List.take_append_drop (ibufLeft buf) R] at hstream
    rw [← List.append_assoc, List.append_assoc _ (R.drop (ibufLeft buf)) laterT] at hstream
    have hrest : Tagged (put r (fill buf rest)) (R.drop (ibufLeft buf)) laterT rem' fd' := by
      refine ⟨hfilter, ?_⟩
      rw [hput]
      exact List.append_cancel_left hstream
    obtain ⟨C, R', hsplit, hR', ht', hnew, hC⟩ := hl.tags _ laterT (by
      rw [List.map_drop, hR]) hrest
    refine ⟨R.take (ibufLeft buf) ++ C, R', ?_, hR', ht', ?_, fun i x hx hne => ?_⟩
    · rw [List.append_assoc, ← hsplit, List.take_append_drop]
    · have hthis : imsgOf (fill buf rest) = m := by
        have hsame : (fill buf rest).fd = m.fd := hfd
        rw [himsg, hsame]
      rw [List.map_cons, hnew, hthis]
    · have htake : (R.take (ibufLeft buf)).length = ibufLeft buf := by
        rw [List.length_take]
        omega
      -- the descriptor is at the first byte of this message, or further on
      rcases Nat.lt_or_ge i (ibufLeft buf) with hlt | hge
      · rw [List.getElem?_append_left (by omega)] at hx
        exact hhead i x hx hne
      · rw [List.getElem?_append_right (by omega), htake] at hx
        have hi := hC _ x hx hne
        rw [List.length_drop] at hi
        omega

/-- The bytes end within a message. -/
theorem Looped.part (ho : Opened r rest later fd m rem' buf fd') (hrest : rest ≠ [])
    (hlt : rest.length < ibufLeft buf) :
    Looped r rest later fd (m :: rem') (put r (fill buf rest)) [] fd' [] (m :: rem') [] := by
  obtain ⟨hdata, hleft, hp⟩ := ho.incomplete hrest hlt
  have hput : put r (fill buf rest) = { r with rpmsg := some (fill buf rest) } := if_neg hleft
  refine ⟨rfl, hp, ?_, ?_, rfl, fun hnone => ?_, fun _ => rfl, fun R laterT hR ht => ?_⟩
  · rw [hput, List.append_nil]
  · rw [hput]
  · rw [hput] at hnone
    cases hnone
  · have hRlen : rest.length = R.length := by rw [← hR, List.length_map]
    have hpos : 0 < R.length := by
      rw [← hRlen]
      exact List.length_pos_of_ne_nil hrest
    obtain ⟨_, hfilter, hjoin, hhead⟩ := ho.tags hR ht hpos (by omega) le_rfl
    rw [List.take_length] at hjoin hhead
    rw [← hRlen, List.take_length] at hjoin
    refine ⟨R, [], (List.append_nil R).symm, rfl, ⟨?_, ?_⟩, rfl, hhead⟩
    · rw [← hfilter, List.drop_length]
    · have hpend : pendTags (put r (fill buf rest)) = buf.tagged ++ R := by
        rw [hput, ← hjoin, ← hdata]
        rfl
      rw [hpend, List.append_nil, ← ht.stream, ho.pendTags_eq]

/-- However the stream is cut, the loop finds the messages that are complete. -/
theorem readLoop_spec (hmax : maxsize < 2 ^ 31) (fuel : ℕ) :
    ∀ r rest fd rem, Parsing r rest later rem → (∀ m ∈ rem, Fits maxsize m) → rest ≠ [] →
      rest.length ≤ fuel → ∃ r' rest' fd' done rem' new,
        readLoop maxsize fuel r rest fd = some (r', rest', fd') ∧
        Looped r rest later fd rem r' rest' fd' done rem' new := by
  induction fuel with
  | zero =>
    intro r rest fd rem _ _ hne hlen
    exact absurd (List.eq_nil_of_length_eq_zero (Nat.le_zero.1 hlen)) hne
  | succ fuel ih =>
    intro r rest fd rem hp hfits hne hlen
    -- less than a header is left: wait for more
    by_cases hstop : r.rpmsg = none ∧ rest.length < imsgHeaderSize
    · have hnext : nextMsg maxsize r.rpmsg rest fd = .stop := by
        rw [hstop.1, nextMsg, if_pos hstop.2]
      refine ⟨r, rest, fd, [], rem, [], ?_, .refl hp (fun _ => hstop.2) fun hsome =>
        absurd hstop.1 hsome⟩
      rw [readLoop, hnext]
    · obtain ⟨m, rem', buf, fd', rfl, hnext, ho⟩ := nextMsg_eq hp hfits hmax
        (fun hnone => by
          by_contra hlt
          exact hstop ⟨hnone, Nat.lt_of_not_le hlt⟩) fd
      have hm := hfits m (List.mem_cons_self ..)
      rw [readLoop, hnext]
      dsimp only
      rcases Nat.lt_or_ge rest.length (ibufLeft buf) with hlt | hle
      -- the message goes on behind the bytes that were read
      · rw [Nat.min_eq_right hlt.le, List.drop_length, if_pos rfl]
        exact ⟨_, _, _, _, _, _, rfl, .part ho hne hlt⟩
      -- the message is complete, and the loop goes on behind it
      · rw [Nat.min_eq_left hle]
        obtain ⟨_, hleft, hstream⟩ := ho.complete hle
        have hput : put r (fill buf rest) =
            { r with rpmsg := none, rbufs := r.rbufs ++ [fill buf rest] } := if_pos hleft
        have hp' : Parsing (put r (fill buf rest)) (rest.drop (ibufLeft buf)) later rem' := by
          rw [hput]
          refine ⟨hstream, fun b hb => ?_⟩
          cases hb
        split_ifs with hend
        · rw [hend] at hp'
          have hl : Looped (put r (fill buf rest)) (rest.drop (ibufLeft buf)) later fd' rem'
              (put r (fill buf rest)) [] fd' [] rem' [] := by
            rw [hend]
            exact .refl hp' (fun _ => by decide) fun _ => rfl
          exact ⟨_, _, _, [m], rem', [fill buf rest], rfl, .cons ho hm hmax hle hl⟩
        · have hpos := ho.left_pos
          obtain ⟨r', rest', fd'', done, rem'', new, hloop, hl⟩ := ih _ _ fd' rem' hp'
            (fun n hn => hfits n (List.mem_cons_of_mem m hn)) hend (by
              rw [List.length_drop]
              omega)
          exact ⟨r', rest', fd'', m :: done, rem'', _, hloop, .cons ho hm hmax hle hl⟩

end Bgpd.Imsg
