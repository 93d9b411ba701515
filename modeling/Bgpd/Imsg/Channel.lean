import Bgpd.Imsg.Frame

/-!
# A Channel between Two Processes

Messages are queued, written in parts of any size and read in parts of any size. The reader gets the
messages that were sent, in their order, whatever the parts are, and it never fails.

A descriptor comes with the first byte of its message. `ibuf_read_process` closes a descriptor that
no header asked for at the end of a read, so it is lost when the header of its message is cut by the
end of this read, and only then.

## Main definitions

- `Reach`: the channels of all runs, with the messages that were sent

## Main results

- `Reach.inv`: the invariant of runs
- `channel_lossless`: what is received
-/

namespace Bgpd.Imsg

variable {maxsize k : ℕ} {self : BitVec 32} {c : Channel} {sent done rem : List Imsg}
  {clean : Bool}

/-! ## Runs -/

/-- What `recvmsg` may take: it returns at least one byte and at most one descriptor. -/
structure CanRead (c : Channel) (k : ℕ) : Prop where
  pos : 0 < k
  le : k ≤ c.sock.length
  room : c.reader.rbuf.length + k ≤ ibufReadSize
  fds : ((c.sock.take k).filterMap Prod.snd).length ≤ 1

/-- A descriptor came with a byte that is not followed by a complete header. -/
def cutsHeader (taken : List (Byte × Option Fd)) : Bool :=
  (taken.drop (taken.length - (imsgHeaderSize - 1))).any fun x => x.2.isSome

/-- The runs of a channel, with the messages that were sent, and if no read has cut the header of a
    message with a descriptor. -/
inductive Reach (maxsize : ℕ) (self : BitVec 32) : Channel → List Imsg → Bool → Prop
  | init : Reach maxsize self .empty [] true
  | queue {c : Channel} {sent : List Imsg} {clean : Bool} (type id pid : BitVec 32) (datalen : ℕ)
      (fd : Option Fd) (parts : List (List Byte)) {buf : Ibuf}
      (hrun : Reach maxsize self c sent clean)
      (hmsg : imsgMsg maxsize self type id pid datalen fd parts = some buf) :
      Reach maxsize self { c with bufs := c.bufs ++ [buf] }
        (sent ++ [sentMsg self type id pid fd parts]) clean
  | write {c : Channel} {sent : List Imsg} {clean : Bool} (n : ℕ)
      (hrun : Reach maxsize self c sent clean) (hpos : 0 < n)
      (hle : n ≤ ((offered c.bufs).flatMap Ibuf.data).length) :
      Reach maxsize self
        { c with bufs := (msgbufWrite n c.bufs).2, sock := c.sock ++ (msgbufWrite n c.bufs).1 }
        sent clean
  | read {c : Channel} {sent : List Imsg} {clean : Bool} (k : ℕ) {r : Reader}
      (hrun : Reach maxsize self c sent clean) (hread : CanRead c k)
      (hstep : msgbufRead maxsize c.reader (c.sock.take k) = some r) :
      Reach maxsize self { c with sock := c.sock.drop k, reader := r } sent
        (clean && !cutsHeader (c.sock.take k))
  | get {c : Channel} {sent : List Imsg} {clean : Bool} {m : Imsg} {r : Reader}
      (hrun : Reach maxsize self c sent clean) (hget : imsgbufGet c.reader = some (m, r)) :
      Reach maxsize self { c with reader := r, got := c.got ++ [m] } sent clean

/-! ## The invariant -/

/-- The messages that are with the receiver. -/
def delivered (c : Channel) : List Imsg := c.got ++ c.reader.rbufs.map imsgOf

/-- What is on its way. -/
def onWay (c : Channel) : List (Byte × Option Fd) := c.sock ++ c.bufs.flatMap Ibuf.tagged

/-- The messages `done` were received, the messages `rem` are on their way. -/
structure Inv (maxsize : ℕ) (c : Channel) (clean : Bool) (done rem : List Imsg) : Prop where
  fits : ∀ m ∈ rem, Fits maxsize m
  bufs : ∀ b ∈ c.bufs, b.data ≠ []
  bare : (delivered c).map Imsg.bare = done.map Imsg.bare
  parsing : Parsing c.reader c.reader.rbuf ((onWay c).map Prod.fst) rem
  idle : c.reader.rpmsg = none → c.reader.rbuf.length < imsgHeaderSize
  busy : c.reader.rpmsg ≠ none → c.reader.rbuf = []
  closed : clean = true ↔ c.reader.closed = []
  tags : clean = true → delivered c = done ∧
    Tagged c.reader (c.reader.rbuf.map fun b => (b, none)) (onWay c) rem none

theorem inv_empty : Inv maxsize .empty true [] [] := by
  refine ⟨fun m hm => ?_, fun b hb => ?_, rfl, ⟨rfl, fun b hb => ?_⟩, fun _ => ?_, fun _ => rfl,
    iff_of_true rfl rfl, fun _ => ⟨rfl, rfl, rfl⟩⟩
  · cases hm
  · cases hb
  · cases hb
  · exact Nat.succ_pos _

/-- A queued message is owed to the reader. -/
theorem Inv.queue {m : Imsg} {buf : Ibuf} (hi : Inv maxsize c clean done rem)
    (hm : Fits maxsize m) (hdata : buf.data = wire m) (hfd : buf.fd = m.fd) :
    Inv maxsize { c with bufs := c.bufs ++ [buf] } clean done (rem ++ [m]) := by
  have htagged : buf.tagged = tagWire m := by rw [Ibuf.tagged, tagWire, hdata, hfd]
  have hway : onWay { c with bufs := c.bufs ++ [buf] } = onWay c ++ tagWire m := by
    rw [onWay, onWay, List.flatMap_append, List.flatMap_singleton, htagged, List.append_assoc]
  have hfst : (tagWire m).map Prod.fst = wire m := map_fst_tagFirst _ _
  refine ⟨fun n hn => ?_, fun b hb => ?_, hi.bare, ⟨?_, fun b hb => ?_⟩, hi.idle, hi.busy,
    hi.closed, fun hclean => ?_⟩
  · rcases List.mem_append.1 hn with hn | hn
    · exact hi.fits n hn
    · rw [List.mem_singleton.1 hn]
      exact hm
  · rcases List.mem_append.1 hb with hb | hb
    · exact hi.bufs b hb
    · rw [List.mem_singleton.1 hb, hdata]
      exact wire_ne_nil m
  · rw [hway, List.map_append, hfst, ← List.append_assoc, hi.parsing.stream, List.flatMap_append,
      List.flatMap_singleton]
  · obtain ⟨m₀, rem', rfl, hrest⟩ := hi.parsing.begun b hb
    exact ⟨m₀, rem' ++ [m], rfl, hrest⟩
  · obtain ⟨hdone, ht⟩ := hi.tags hclean
    refine ⟨hdone, ht.fd, ?_⟩
    rw [hway, ← List.append_assoc, ht.stream, List.flatMap_append, List.flatMap_singleton]

theorem Inv.write {n : ℕ} (hi : Inv maxsize c clean done rem) (hpos : 0 < n)
    (hle : n ≤ ((offered c.bufs).flatMap Ibuf.data).length) :
    Inv maxsize
      { c with bufs := (msgbufWrite n c.bufs).2, sock := c.sock ++ (msgbufWrite n c.bufs).1 }
      clean done rem := by
  obtain ⟨hstream, hne⟩ := msgbufWrite_stream hi.bufs hpos hle
  have hway : onWay { c with
      bufs := (msgbufWrite n c.bufs).2, sock := c.sock ++ (msgbufWrite n c.bufs).1 } = onWay c := by
    rw [onWay, onWay, List.append_assoc, hstream]
  refine ⟨hi.fits, hne, hi.bare, ?_, hi.idle, hi.busy, hi.closed, fun hclean => ?_⟩
  · rw [hway]
    exact hi.parsing
  · rw [hway]
    exact hi.tags hclean

/-- Getting a message takes the oldest one that was read. -/
theorem Inv.get {m : Imsg} {r : Reader} (hi : Inv maxsize c clean done rem)
    (hget : imsgbufGet c.reader = some (m, r)) :
    Inv maxsize { c with reader := r, got := c.got ++ [m] } clean done rem := by
  rw [imsgbufGet] at hget
  cases hbufs : c.reader.rbufs with
  | nil =>
    rw [hbufs] at hget
    cases hget
  | cons b rest =>
    rw [hbufs, Option.some.injEq, Prod.mk.injEq] at hget
    obtain ⟨rfl, rfl⟩ := hget
    have hsame : delivered
        { c with reader := { c.reader with rbufs := rest }, got := c.got ++ [imsgOf b] } =
        delivered c := by
      rw [delivered, delivered, hbufs, List.map_cons, List.append_assoc, List.singleton_append]
    refine ⟨hi.fits, hi.bufs, ?_, ⟨hi.parsing.stream, hi.parsing.begun⟩, hi.idle, hi.busy,
      hi.closed, fun hclean => ?_⟩
    · rw [hsame]
      exact hi.bare
    · obtain ⟨hdone, ht⟩ := hi.tags hclean
      exact ⟨hsame.trans hdone, ht.fd, ht.stream⟩

/-! ## One read -/

theorem toList_passedFd {taken : List (Byte × Option Fd)}
    (hone : (taken.filterMap Prod.snd).length ≤ 1) :
    taken.filterMap Prod.snd = (passedFd taken).toList := by
  rw [passedFd]
  cases htags : taken.filterMap Prod.snd with
  | nil => rfl
  | cons f fs =>
    rw [htags, List.length_cons] at hone
    have hfs : fs = [] := List.eq_nil_of_length_eq_zero (by omega)
    rw [hfs]
    rfl

theorem cutsHeader_iff (taken : List (Byte × Option Fd)) :
    cutsHeader taken = true ↔
      ∃ i x, taken[i]? = some x ∧ x.2 ≠ none ∧ taken.length < i + imsgHeaderSize := by
  rw [cutsHeader, List.any_eq_true]
  constructor
  · rintro ⟨x, hx, hsome⟩
    obtain ⟨j, hj⟩ := List.mem_iff_getElem?.1 hx
    rw [List.getElem?_drop] at hj
    refine ⟨_, x, hj, Option.isSome_iff_ne_none.1 hsome, ?_⟩
    have hsize : imsgHeaderSize = 16 := rfl
    omega
  · rintro ⟨i, x, hx, hsome, hlen⟩
    refine ⟨x, List.mem_iff_getElem?.2 ⟨i - (taken.length - (imsgHeaderSize - 1)), ?_⟩,
      Option.isSome_iff_ne_none.2 hsome⟩
    have hsize : imsgHeaderSize = 16 := rfl
    rw [List.getElem?_drop, ← hx]
    congr 1
    omega

/-- The descriptor was taken if and only if the header of its message was read. -/
theorem taken_iff {old : List Byte} {taken C R' : List (Byte × Option Fd)} {fd' : Option Fd}
    (hsplit : (old.map fun b => (b, none)) ++ taken = C ++ R')
    (hfd : R'.filterMap Prod.snd = fd'.toList)
    (hshort : fd' ≠ none → R'.length < imsgHeaderSize)
    (hC : ∀ i x, C[i]? = some x → x.2 ≠ none →
      i + imsgHeaderSize ≤ ((old.map fun b => (b, (none : Option Fd))) ++ taken).length) :
    fd' = none ↔ cutsHeader taken = false := by
  have hlen : ((old.map fun b => (b, (none : Option Fd))) ++ taken).length =
      old.length + taken.length := by rw [List.length_append, List.length_map]
  have hlenC := congrArg List.length hsplit
  rw [hlen, List.length_append] at hlenC
  have hat : ∀ i, taken[i]? = (C ++ R')[old.length + i]? := by
    intro i
    rw [← hsplit, List.getElem?_append_right (by rw [List.length_map]; omega), List.length_map,
      Nat.add_sub_cancel_left]
  rw [← Bool.not_eq_true, cutsHeader_iff]
  constructor
  · intro hnone
    rw [hnone, Option.toList_none, List.filterMap_eq_nil_iff] at hfd
    rintro ⟨i, x, hx, hsome, hcut⟩
    rw [hat] at hx
    -- consumed bytes: the message begins there, so its header is all read
    rcases Nat.lt_or_ge (old.length + i) C.length with hlt | hge
    · rw [List.getElem?_append_left hlt] at hx
      have hi := hC _ x hx hsome
      omega
    -- bytes that are left: none of them has the descriptor
    · rw [List.getElem?_append_right hge] at hx
      exact hsome (hfd x (List.mem_of_getElem? hx))
  · intro hgood
    cases hfd' : fd' with
    | none => rfl
    | some f =>
      -- the descriptor is among the last bytes
      rw [hfd', Option.toList_some] at hfd
      have hmem : f ∈ R'.filterMap Prod.snd := by
        rw [hfd]
        exact List.mem_singleton_self f
      obtain ⟨x, hx, hxf⟩ := List.mem_filterMap.1 hmem
      obtain ⟨j, hj⟩ := List.mem_iff_getElem?.1 hx
      have hjlt := (List.getElem?_eq_some_iff.1 hj).1
      have hRlen := hshort (by rw [hfd']; exact Option.some_ne_none f)
      have hsome : x.2 ≠ none := by
        rw [hxf]
        exact Option.some_ne_none f
      -- the bytes read before carry none, so it came with this read
      have hpos : old.length ≤ C.length + j := by
        by_contra hlt
        have hold : (C ++ R')[C.length + j]? = some x := by
          rw [List.getElem?_append_right (Nat.le_add_right _ _), Nat.add_sub_cancel_left, hj]
        rw [← hsplit, List.getElem?_append_left (by rw [List.length_map]; omega), List.getElem?_map,
          Option.map_eq_some_iff] at hold
        obtain ⟨b, _, rfl⟩ := hold
        exact hsome rfl
      refine absurd ⟨C.length + j - old.length, x, ?_, hsome, ?_⟩ hgood
      · rw [hat, Nat.add_sub_cancel' hpos,
          List.getElem?_append_right (Nat.le_add_right _ _), Nat.add_sub_cancel_left, hj]
      · omega

/-- A read never fails, and it keeps the invariant. -/
theorem Inv.read (hi : Inv maxsize c clean done rem) (hmax : maxsize < 2 ^ 31) (hk : CanRead c k) :
    ∃ r done' rem', msgbufRead maxsize c.reader (c.sock.take k) = some r ∧ rem = done' ++ rem' ∧
      Inv maxsize { c with sock := c.sock.drop k, reader := r }
        (clean && !cutsHeader (c.sock.take k)) (done ++ done') rem' := by
  have hway : onWay c = c.sock.take k ++ (c.sock.drop k ++ c.bufs.flatMap Ibuf.tagged) := by
    rw [onWay, ← List.append_assoc, List.take_append_drop]
  have hp : Parsing { c.reader with rbuf := c.reader.rbuf ++ (c.sock.take k).map Prod.fst }
      (c.reader.rbuf ++ (c.sock.take k).map Prod.fst)
      ((c.sock.drop k ++ c.bufs.flatMap Ibuf.tagged).map Prod.fst) rem := by
    refine ⟨?_, hi.parsing.begun⟩
    rw [← hi.parsing.stream, hway]
    simp only [List.map_append, List.append_assoc]
    rfl
  have hne : c.reader.rbuf ++ (c.sock.take k).map Prod.fst ≠ [] := by
    apply List.ne_nil_of_length_pos
    have hpos := hk.pos
    have hle := hk.le
    rw [List.length_append, List.length_map, List.length_take]
    omega
  obtain ⟨r', rest', fd', done', rem', new, hloop, hl⟩ := readLoop_spec hmax
    ((c.reader.rbuf ++ (c.sock.take k).map Prod.fst).length + 1) _ _ (passedFd (c.sock.take k)) rem
    hp hi.fits hne (Nat.le_succ _)
  refine ⟨{ r' with rbuf := rest', closed := r'.closed ++ fd'.toList }, done', rem', ?_, hl.split,
    ?_⟩
  · rw [msgbufRead, ibufReadProcess, hloop]
  · have hrbufs : r'.rbufs = c.reader.rbufs ++ new := hl.rbufs
    have hclosed : r'.closed = c.reader.closed := hl.closed
    have hdeliv : delivered { c with
        sock := c.sock.drop k,
        reader := { r' with rbuf := rest', closed := r'.closed ++ fd'.toList } } =
        delivered c ++ new.map imsgOf := by
      rw [delivered, delivered, hrbufs, List.map_append, List.append_assoc]
    -- what is known of the descriptors if none was lost before
    have htags : clean = true → (fd' = none ↔ cutsHeader (c.sock.take k) = false) ∧
        new.map imsgOf = done' ∧ (fd' = none →
          Tagged r' (rest'.map fun b => (b, none))
            (c.sock.drop k ++ c.bufs.flatMap Ibuf.tagged) rem' none) := by
      intro hclean
      obtain ⟨_, ht⟩ := hi.tags hclean
      have ht' : Tagged { c.reader with rbuf := c.reader.rbuf ++ (c.sock.take k).map Prod.fst }
          ((c.reader.rbuf.map fun b => (b, none)) ++ c.sock.take k)
          (c.sock.drop k ++ c.bufs.flatMap Ibuf.tagged) rem (passedFd (c.sock.take k)) := by
        refine ⟨?_, ?_⟩
        · rw [List.filterMap_append, filterMap_untagged, List.nil_append, toList_passedFd hk.fds]
        · rw [← ht.stream, hway]
          simp only [List.append_assoc]
          rfl
      obtain ⟨C, R', hsplit, hR', htR, hnew, hC⟩ := hl.tags _ _ (by
        rw [List.map_append, map_fst_untagged]) ht'
      have hR'len : R'.length = rest'.length := by rw [← hR', List.length_map]
      refine ⟨taken_iff hsplit htR.fd (fun hsome => ?_) hC, hnew, fun hnone => ?_⟩
      · cases hr' : r'.rpmsg with
        | none =>
          rw [hR'len]
          exact hl.idle hr'
        | some b =>
          have hrest := hl.busy (by rw [hr']; exact Option.some_ne_none b)
          rw [hR'len, hrest]
          exact Nat.succ_pos _
      · -- no byte that is left has a descriptor
        have hfd := htR.fd
        rw [hnone] at hfd htR
        have hR'eq : R' = rest'.map fun b => (b, none) := by
          rw [← hR', List.map_map]
          rw [Option.toList_none, List.filterMap_eq_nil_iff] at hfd
          refine (List.map_id R').symm.trans (List.map_congr_left fun x hx => ?_)
          exact Prod.ext rfl (hfd x hx)
        rw [← hR'eq]
        exact htR
    refine ⟨fun m hm => hi.fits m ?_, hi.bufs, ?_, ?_, hl.idle, hl.busy, ?_, fun hclean => ?_⟩
    · rw [hl.split]
      exact List.mem_append_right _ hm
    · rw [hdeliv, List.map_append, List.map_append, hi.bare, ← hl.bare, List.map_map]
      rfl
    · exact ⟨hl.parsing.stream, hl.parsing.begun⟩
    · dsimp only
      rw [hclosed, List.append_eq_nil_iff, ← hi.closed, Bool.and_eq_true]
      refine and_congr_right fun hclean => ?_
      rw [Option.toList_eq_nil_iff, (htags hclean).1]
      cases cutsHeader (c.sock.take k) <;> decide
    · rw [Bool.and_eq_true] at hclean
      obtain ⟨hiff, hnew, htagged⟩ := htags hclean.1
      have hnone : fd' = none := hiff.2 (by simpa using hclean.2)
      have ht := htagged hnone
      refine ⟨?_, ht.fd, ht.stream⟩
      rw [hdeliv, (hi.tags hclean.1).1, hnew]

/-- The run lemma. -/
theorem Reach.inv (hmax : maxsize < 2 ^ 31) (hr : Reach maxsize self c sent clean) :
    ∃ done rem, sent = done ++ rem ∧ Inv maxsize c clean done rem := by
  induction hr with
  | init => exact ⟨[], [], rfl, inv_empty⟩
  | queue type id pid datalen fd parts hrun hmsg ih =>
    obtain ⟨done, rem, rfl, hi⟩ := ih
    obtain ⟨hdata, hfd, hm⟩ := imsgMsg_wire hmsg
    exact ⟨done, rem ++ [sentMsg self type id pid fd parts], List.append_assoc ..,
      hi.queue hm hdata hfd⟩
  | write n hrun hpos hle ih =>
    obtain ⟨done, rem, rfl, hi⟩ := ih
    exact ⟨done, rem, rfl, hi.write hpos hle⟩
  | read k hrun hread hstep ih =>
    obtain ⟨done, rem, rfl, hi⟩ := ih
    obtain ⟨r, done', rem', hread', rfl, hi'⟩ := hi.read hmax hread
    rw [hstep, Option.some.injEq] at hread'
    subst hread'
    exact ⟨done ++ done', rem', (List.append_assoc ..).symm, hi'⟩
  | get hrun hget ih =>
    obtain ⟨done, rem, rfl, hi⟩ := ih
    exact ⟨done, rem, rfl, hi.get hget⟩

/-! ## What is received -/

/-- What holds of the two ends. -/
structure ChannelOk (maxsize : ℕ) (c : Channel) (sent : List Imsg) (clean : Bool) : Prop where
  /-- Messages arrive complete and in order. -/
  order : (delivered c).map Imsg.bare <+: sent.map Imsg.bare
  /-- When nothing is queued and nothing is in the socket, all of them have arrived. -/
  all : c.bufs = [] → c.sock = [] → (delivered c).map Imsg.bare = sent.map Imsg.bare ∧
    c.reader.rbuf = [] ∧ c.reader.rpmsg = none
  reads : ∀ k, CanRead c k → ∃ r, msgbufRead maxsize c.reader (c.sock.take k) = some r
  /-- No descriptor is lost, and all are with their messages. -/
  fds : c.reader.closed = [] ∧ delivered c <+: sent ↔ clean = true

/-- With nothing on its way, nothing is owed. -/
theorem Inv.all (hi : Inv maxsize c clean done rem) (hway : onWay c = []) :
    rem = [] ∧ c.reader.rbuf = [] ∧ c.reader.rpmsg = none := by
  have hstream := hi.parsing.stream
  rw [hway, List.map_nil, List.append_nil] at hstream
  cases hr : c.reader.rpmsg with
  | some b =>
    -- a message that was begun needs more bytes
    obtain ⟨m, rem', rfl, hbmax, _, hlt⟩ := hi.parsing.begun b hr
    have hrbuf := hi.busy (by rw [hr]; exact Option.some_ne_none b)
    rw [pendData, hr, Option.elim_some, hrbuf, List.append_nil, List.flatMap_cons] at hstream
    have hlen := congrArg List.length hstream
    rw [List.length_append] at hlen
    omega
  | none =>
    have hshort := hi.idle hr
    rw [pendData, hr, Option.elim_none, List.nil_append] at hstream
    cases rem with
    | nil => exact ⟨rfl, hstream, rfl⟩
    | cons m rem' =>
      have hlen := congrArg List.length hstream
      have hhead := header_le m
      rw [List.flatMap_cons, List.length_append] at hlen
      omega

/-- In every run of a channel, however the stream of bytes is cut by `sendmsg` and `recvmsg`: no
    read fails, the messages arrive unchanged and in order, all of them as soon as nothing is on its
    way, and the descriptors are all received with the messages that they were sent with if and only
    if no read has cut the header of a message with a descriptor. -/
theorem channel_lossless (maxsize : ℕ) (self : BitVec 32) (hsize : MaxSize maxsize) (c : Channel)
    (sent : List Imsg) (clean : Bool) (hr : Reach maxsize self c sent clean) :
    ChannelOk maxsize c sent clean := by
  have hmax := hsize.lt
  obtain ⟨done, rem, rfl, hi⟩ := hr.inv hmax
  refine ⟨?_, fun hbufs hsock => ?_, fun k hk => ?_, fun hall => hi.closed.2 hall.1,
    fun hclean => ⟨hi.closed.1 hclean, ?_⟩⟩
  · rw [hi.bare, List.map_append]
    exact List.prefix_append _ _
  · have hway : onWay c = [] := by rw [onWay, hbufs, hsock]; rfl
    obtain ⟨rfl, hrest⟩ := hi.all hway
    rw [List.append_nil]
    exact ⟨hi.bare, hrest⟩
  · obtain ⟨r, _, _, hread, _⟩ := hi.read hmax hk
    exact ⟨r, hread⟩
  · rw [(hi.tags hclean).1]
    exact List.prefix_append _ _

/-- Two messages, one of them with a descriptor: the bytes are written in two pieces, and read in
    pieces that end inside of both messages. -/
theorem channel_lossless_sample : ∃ c,
    Reach 16384 7 c
        [sentMsg 7 1 2 0 (some 3) [[1, 2, 3, 4]], sentMsg 7 1 3 0 none [[5], [6, 7]]] true ∧
      c.reader.rbufs.length = 2 ∧
      ChannelOk 16384 c
        [sentMsg 7 1 2 0 (some 3) [[1, 2, 3, 4]], sentMsg 7 1 3 0 none [[5], [6, 7]]] true := by
  have hinit : Reach 16384 7 .empty [] true := .init
  have hfirst := hinit.queue 1 2 0 4 (some 3) [[1, 2, 3, 4]] rfl
  have hsecond := hfirst.queue 1 3 0 3 none [[5], [6, 7]] rfl
  have hpiece := hsecond.write 15 (by decide) (by decide)
  have hwrite := hpiece.write 24 (by decide) (by decide)
  have hcut := hwrite.read 18 ⟨by decide, by decide, by decide, by decide⟩ rfl
  have hcut' := hcut.read 12 ⟨by decide, by decide, by decide, by decide⟩ rfl
  have hr := hcut'.read 9 ⟨by decide, by decide, by decide, by decide⟩ rfl
  exact ⟨_, hr, rfl, channel_lossless 16384 7 .init _ _ true hr⟩

/-- The header is cut, and the descriptor is lost. -/
theorem descriptor_lost : ∃ c, Reach 16384 7 c [sentMsg 7 1 2 0 (some 3) [[1, 2, 3, 4]]] false ∧
    c.reader.closed = [3] := by
  have hinit : Reach 16384 7 .empty [] true := .init
  have hqueue := hinit.queue 1 2 0 4 (some 3) [[1, 2, 3, 4]] rfl
  have hwrite := hqueue.write 20 (by decide) (by decide)
  have hr := hwrite.read 15 ⟨by decide, by decide, by decide, by decide⟩ rfl
  exact ⟨_, hr, rfl⟩

end Bgpd.Imsg
