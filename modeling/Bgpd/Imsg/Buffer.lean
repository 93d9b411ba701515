import Mathlib.Data.BitVec
import Mathlib.Data.List.Basic

/-!
# Messages between the Processes

Model of `imsg.c` and `imsg-buffer.c` of `libutil`: how messages are queued, written to a socket,
read from it and taken apart, on channels that allow descriptor passing.

The socket is a stream of bytes. A descriptor goes with the first byte of the `sendmsg` that carries
it, so every byte in the socket may have one. How many bytes `sendmsg` and `recvmsg` take is an
argument.

## Main definitions

- `imsgMsg`: `imsg_create`, `imsg_add` and `imsg_close`
- `msgbufWrite`, `msgbufRead`: the two ends of the socket
- `imsgbufGet`: a message that was read
- `Channel`: both ends together, with the same size of messages
-/

namespace Bgpd.Imsg

/-! ## Data -/

/-- An open file -/
abbrev Fd := ℕ

abbrev Byte := BitVec 8

/-- `struct imsg_hdr` -/
structure ImsgHdr where
  type : BitVec 32
  len : BitVec 32
  peerid : BitVec 32
  pid : BitVec 32

/-- `IMSG_HEADER_SIZE` -/
def imsgHeaderSize : ℕ := 16

/-- `IMSG_FD_MARK` -/
def imsgFdMark : BitVec 32 := 0x80000000

/-- `IBUF_READ_SIZE` -/
def ibufReadSize : ℕ := 65535

/-- `IOV_MAX` -/
def iovMax : ℕ := 1024

/-- The bytes of a number, the lowest one first. -/
def bytes32 (v : BitVec 32) : List Byte :=
  [BitVec.ofNat 8 v.toNat, BitVec.ofNat 8 (v.toNat / 2 ^ 8), BitVec.ofNat 8 (v.toNat / 2 ^ 16),
    BitVec.ofNat 8 (v.toNat / 2 ^ 24)]

/-- The number at an offset. -/
def word32 (data : List Byte) (pos : ℕ) : BitVec 32 :=
  BitVec.ofNat 32 ((data.getD pos 0).toNat + (data.getD (pos + 1) 0).toNat * 2 ^ 8 +
    (data.getD (pos + 2) 0).toNat * 2 ^ 16 + (data.getD (pos + 3) 0).toNat * 2 ^ 24)

/-- The bytes of a header. -/
def ImsgHdr.bytes (hdr : ImsgHdr) : List Byte :=
  bytes32 hdr.type ++ bytes32 hdr.len ++ bytes32 hdr.peerid ++ bytes32 hdr.pid

/-- The header at the start of a buffer. -/
def hdrOf (data : List Byte) : ImsgHdr :=
  ⟨word32 data 0, word32 data 4, word32 data 8, word32 data 12⟩

/-- `struct ibuf`: what is between `rpos` and `wpos`, `max` and the descriptor. -/
structure Ibuf where
  data : List Byte
  max : ℕ
  fd : Option Fd

/-- `ibuf_left` of a buffer that was not read from. -/
def ibufLeft (buf : Ibuf) : ℕ := buf.max - buf.data.length

/-- `ibuf_add` -/
def ibufAdd (buf : Ibuf) (data : List Byte) : Option Ibuf :=
  if data.length = 0 then some buf
  else if buf.max < buf.data.length + data.length then none
  else some { buf with data := buf.data ++ data }

/-! ## The size of a message -/

/-- `MAX_IMSGSIZE` -/
def maxImsgsize : ℕ := 16384

/-- `imsgbuf_set_maxsize`: the new size of a message with its header. -/
def imsgbufSetMaxsize (max : BitVec 32) : Option ℕ :=
  if 2 ^ 32 - 1 - imsgHeaderSize < max.toNat then none
  else if (max + BitVec.ofNat 32 imsgHeaderSize) &&& imsgFdMark ≠ 0 then none
  else some (max + BitVec.ofNat 32 imsgHeaderSize).toNat

/-- The sizes that a channel can have: the one of `imsgbuf_init`, or one that was set. -/
inductive MaxSize : ℕ → Prop
  | init : MaxSize maxImsgsize
  | set {maxsize : ℕ} (max : BitVec 32) (hset : imsgbufSetMaxsize max = some maxsize) :
      MaxSize maxsize

/-! ## Queueing -/

/-- `imsg_create`; the sum is a `size_t`. -/
def imsgCreate (maxsize : ℕ) (self type id pid : BitVec 32) (datalen : ℕ) : Option Ibuf :=
  if maxsize < (datalen + imsgHeaderSize) % 2 ^ 64 then none
  else ibufAdd ⟨[], maxsize, none⟩ (ImsgHdr.bytes ⟨type, 0, id, if pid = 0 then self else pid⟩)

/-- `imsg_close`: the length is put into the header. -/
def imsgClose (msg : Ibuf) : Ibuf :=
  { msg with
    data := msg.data.take 4 ++
      bytes32 (if msg.fd.isSome then BitVec.ofNat 32 msg.data.length ||| imsgFdMark
        else BitVec.ofNat 32 msg.data.length) ++ msg.data.drop 8 }

/-- `imsg_create`, `imsg_add` for every part of the data, and `imsg_close`; `imsg_compose` has one
    part, and `imsg_composev` any number of them. -/
def imsgMsg (maxsize : ℕ) (self type id pid : BitVec 32) (datalen : ℕ) (fd : Option Fd)
    (parts : List (List Byte)) : Option Ibuf := do
  let buf ← imsgCreate maxsize self type id pid datalen
  let buf ← parts.foldlM ibufAdd buf
  return imsgClose { buf with fd := fd }

/-! ## Writing -/

/-- The buffers that go into one `sendmsg`: a descriptor is only sent with the first of them. -/
def offered : List Ibuf → List Ibuf
  | [] => []
  | buf :: rest => buf :: (rest.take (iovMax - 1)).takeWhile fun b => b.fd.isNone

/-- The bytes of one `sendmsg`, with the descriptor. -/
def tagFirst (fd : Option Fd) : List Byte → List (Byte × Option Fd)
  | [] => []
  | b :: rest => (b, fd) :: rest.map fun b => (b, none)

/-- The descriptor of the first buffer. -/
def headFd : List Ibuf → Option Fd
  | [] => none
  | buf :: _ => buf.fd

/-- The descriptor was sent. -/
def dropFd : List Ibuf → List Ibuf
  | [] => []
  | buf :: rest => { buf with fd := none } :: rest

/-- `msgbuf_drain` -/
def msgbufDrain : ℕ → List Ibuf → List Ibuf
  | _, [] => []
  | n, buf :: rest =>
    if buf.data.length ≤ n then msgbufDrain (n - buf.data.length) rest
    else { buf with data := buf.data.drop n } :: rest

/-- `msgbuf_write`, when `sendmsg` takes `n` bytes: what goes into the socket, and what is left. -/
def msgbufWrite (n : ℕ) (bufs : List Ibuf) : List (Byte × Option Fd) × List Ibuf :=
  (tagFirst (headFd bufs) (((offered bufs).flatMap Ibuf.data).take n), msgbufDrain n (dropFd bufs))

/-! ## Reading -/

/-- The reading side of `struct msgbuf`, and the descriptors that were closed. -/
structure Reader where
  rbuf : List Byte
  rpmsg : Option Ibuf
  rbufs : List Ibuf
  closed : List Fd

/-- `imsg_parse_hdr`: the new buffer, and the descriptor if it was not taken. -/
def imsgParseHdr (maxsize : ℕ) (buf : List Byte) (fd : Option Fd) : Option (Ibuf × Option Fd) :=
  if ((hdrOf buf).len &&& ~~~imsgFdMark).toNat < imsgHeaderSize ∨
      maxsize < ((hdrOf buf).len &&& ~~~imsgFdMark).toNat then none
  else if (hdrOf buf).len &&& imsgFdMark ≠ 0 then
    some (⟨[], ((hdrOf buf).len &&& ~~~imsgFdMark).toNat, fd⟩, none)
  else some (⟨[], ((hdrOf buf).len &&& ~~~imsgFdMark).toNat, none⟩, fd)

/-- How the loop of `ibuf_read_process` goes on. -/
inductive Next
  /-- `readhdr` fails -/
  | fail
  /-- there is no complete header -/
  | stop
  /-- the message, and the descriptor if it was not taken -/
  | msg (buf : Ibuf) (fd : Option Fd)

/-- The message that is being read, or a new one. -/
def nextMsg (maxsize : ℕ) (rpmsg : Option Ibuf) (rest : List Byte) (fd : Option Fd) : Next :=
  match rpmsg with
  | some buf => .msg buf fd
  | none =>
    if rest.length < imsgHeaderSize then .stop
    else
      match imsgParseHdr maxsize (rest.take imsgHeaderSize) fd with
      | none => .fail
      | some (buf, fd) => .msg buf fd

/-- The message after the bytes that there are. -/
def fill (buf : Ibuf) (rest : List Byte) : Ibuf :=
  { buf with data := buf.data ++ rest.take (min (ibufLeft buf) rest.length) }

/-- A message that is complete is queued. -/
def put (r : Reader) (buf : Ibuf) : Reader :=
  if ibufLeft buf = 0 then { r with rpmsg := none, rbufs := r.rbufs ++ [buf] }
  else { r with rpmsg := some buf }

/-- The loop of `ibuf_read_process`; every round takes at least one byte. -/
def readLoop (maxsize : ℕ) :
    ℕ → Reader → List Byte → Option Fd → Option (Reader × List Byte × Option Fd)
  | 0, r, rest, fd => some (r, rest, fd)
  | fuel + 1, r, rest, fd =>
    match nextMsg maxsize r.rpmsg rest fd with
    | .fail => none
    | .stop => some (r, rest, fd)
    | .msg buf fd =>
      if rest.drop (min (ibufLeft buf) rest.length) = [] then some (put r (fill buf rest), [], fd)
      else readLoop maxsize fuel (put r (fill buf rest))
        (rest.drop (min (ibufLeft buf) rest.length)) fd

/-- `ibuf_read_process`; a descriptor that is left is closed. -/
def ibufReadProcess (maxsize : ℕ) (r : Reader) (fd : Option Fd) : Option Reader :=
  match readLoop maxsize (r.rbuf.length + 1) r r.rbuf fd with
  | none => none
  | some (r, rest, fd) => some { r with rbuf := rest, closed := r.closed ++ fd.toList }

/-- The descriptor that comes with these bytes. -/
def passedFd (taken : List (Byte × Option Fd)) : Option Fd := (taken.filterMap Prod.snd).head?

/-- `msgbuf_read` of these bytes. -/
def msgbufRead (maxsize : ℕ) (r : Reader) (taken : List (Byte × Option Fd)) : Option Reader :=
  ibufReadProcess maxsize { r with rbuf := r.rbuf ++ taken.map Prod.fst } (passedFd taken)

/-- `struct imsg` as the receiver sees it, with `imsg_get_fd`. -/
structure Imsg where
  type : BitVec 32
  len : BitVec 32
  peerid : BitVec 32
  pid : BitVec 32
  data : List Byte
  fd : Option Fd

/-- The message in a buffer. -/
def imsgOf (buf : Ibuf) : Imsg :=
  ⟨(hdrOf buf.data).type, (hdrOf buf.data).len &&& ~~~imsgFdMark, (hdrOf buf.data).peerid,
    (hdrOf buf.data).pid, buf.data.drop imsgHeaderSize, buf.fd⟩

/-- `imsgbuf_get` -/
def imsgbufGet (r : Reader) : Option (Imsg × Reader) :=
  match r.rbufs with
  | [] => none
  | buf :: rest => some (imsgOf buf, { r with rbufs := rest })

/-! ## Both ends -/

/-- A writer, the socket, a reader and what `imsgbuf_get` returned. -/
structure Channel where
  bufs : List Ibuf
  sock : List (Byte × Option Fd)
  reader : Reader
  got : List Imsg

/-- A new channel. -/
def Channel.empty : Channel := ⟨[], [], ⟨[], none, [], []⟩, []⟩

end Bgpd.Imsg
