import Mathlib.Data.List.Sort
import Bgpd.Lib.Run
import Bgpd.Rde.Types

/-!
# Peer Indices of MRT Dumps

Model of the TABLE_DUMP_V2 part of `mrt.c` and of `rde_dump_mrt_new`. A dump starts with a table
of all peers; the entries of its RIB records name a peer by its place in that table. The place is
kept in the peer itself, in `mrt_idx`, where the next dump that starts overwrites it, while the
records are written by a walk over the RIB that goes on for a long time.

A peer is an object of its own: one that is removed and configured again is another object.
The RIB entries that the walk visits are events, and so are changes of the peers.

## Main results

- `mrtIdx_eq`: the index of a peer is its place in the last table that lists it
- `allRefer_iff`: when all indices of all dumps refer to the right peers
-/

namespace Bgpd.Rde.MrtIndex

open Bgpd.Lib

/-! ## State -/

/-- `peer->remote_addr` -/
inductive RemoteAddr where
  | unspec
  | v4 (addr : ℕ)
  | v6 (addr : ℕ)
  deriving DecidableEq, Repr

/-- What a session tells about a peer. -/
structure PeerInfo where
  remoteBgpid : ℕ := 0
  remoteAddr : RemoteAddr := .unspec
  shortAs : ℕ := 0
  as4byte : Bool := false
  addPathRecv : Aid → Bool := fun _ => false

/-- `struct rde_peer` -/
structure MrtPeer extends PeerInfo where
  id : PeerId := 0
  remoteAs : ℕ := 0
  mrtIdx : ℕ := 0

/-- A row of the peer index table. -/
structure PeerRow where
  bitA : Bool
  bitI : Bool
  bgpid : ℕ
  addr : ℕ
  as : ℕ
  deriving DecidableEq, Repr

/-- The record `MRT_DUMP_V2_PEER_INDEX_TABLE`. Each row is kept together with its peer. -/
structure PeerIndexTable where
  bgpid : ℕ
  view : String
  peers : List (Ptr × PeerRow)

/-- An entry of a RIB record: `index` is what is written, `peer` the peer it should name. -/
structure MrtEntry where
  index : ℕ
  originated : ℕ
  pathId : Option ℕ
  attrs : List ℕ
  peer : Ptr

/-- A record with the entries of a destination. -/
structure MrtRecord where
  addpath : Bool
  seqnum : ℕ
  pt : PtEntry
  count : ℕ
  entries : List MrtEntry

/-- `enum mrt_type`, as far as tables go. -/
inductive MrtType where
  | tableDump
  | tableDumpMp
  | tableDumpV2
  deriving DecidableEq, Repr

/-- `struct mrt` of a dump and what it wrote. `listed` are the peers there were at the start. -/
structure Mrt where
  rib : String
  type : MrtType
  seqnum : ℕ := 0
  running : Bool := true
  table : Option PeerIndexTable := none
  records : List MrtRecord := []
  listed : List Ptr := []

/-- A path of a RIB entry. `attrs` is what `mrt_attr_dump` writes, `none` when it fails. -/
structure RibPath where
  peer : Ptr
  pathId : ℕ
  lastchange : ℕ
  attrs : Option (List ℕ)

/-- `struct rib_entry` -/
structure RibEntry where
  pt : PtEntry
  paths : List RibPath

/-- The RDE. `added` are all peers there ever were; `starts` lists, latest first, the peers at
    the start of each TABLE_DUMP_V2 dump. -/
structure MrtState where
  bgpid : ℕ
  ribs : List String
  peers : Ptr → MrtPeer
  peertable : List Ptr
  mrts : List Mrt
  added : List Ptr
  starts : List (List Ptr)

namespace MrtState

variable (s : MrtState)

/-- Change a peer. -/
def setPeer (q : Ptr) (peer : MrtPeer) : MrtState :=
  { s with peers := fun p => if p = q then peer else s.peers p }

/-! ## Peers -/

/-- `peer_get` -/
def peerGet (id : PeerId) : Option Ptr := s.peertable.find? fun q => (s.peers q).id = id

/-- `peer_add`; `q` is the object that `calloc` returns, if it comes to that. -/
def peerAdd (q : Ptr) (id : PeerId) (remoteAs : ℕ) : Option MrtState :=
  match s.peerGet id with
  | some old => some (s.setPeer old { s.peers old with remoteAs := remoteAs })
  | none =>
    if q ∈ s.added then none
    else
      let s := s.setPeer q { id := id, remoteAs := remoteAs }
      some { s with
        peertable := s.peertable.orderedInsert (fun a b => (s.peers a).id ≤ (s.peers b).id) q
        added := q :: s.added }

/-- A session comes up. -/
def peerUp (id : PeerId) (info : PeerInfo) : MrtState :=
  match s.peerGet id with
  | some q => s.setPeer q { s.peers q with toPeerInfo := info }
  | none => s

/-- `peer_delete` -/
def peerDelete (id : PeerId) : MrtState :=
  match s.peerGet id with
  | some q => { s with peertable := s.peertable.erase q }
  | none => s

end MrtState

/-! ## The Table -/

/-- `mrt_dump_peer` -/
def mrtDumpPeer (peer : MrtPeer) : PeerRow :=
  { bitA := peer.as4byte
    bitI := match peer.remoteAddr with
      | .v6 _ => true
      | _ => false
    bgpid := peer.remoteBgpid
    addr := match peer.remoteAddr with
      | .v4 addr => addr
      | .v6 addr => addr
      | .unspec => 0
    as := if peer.as4byte then peer.remoteAs else peer.shortAs }

/-- `struct cb_arg`, with the peers it changes. -/
structure CbArg where
  peers : Ptr → MrtPeer
  buf : List (Ptr × PeerRow) := []
  nump : ℕ := 0

/-- `mrt_dump_v2_hdr_peer`. The field `mrt_idx` has 16 bits. -/
def mrtDumpV2HdrPeer (a : CbArg) (q : Ptr) : CbArg :=
  { peers := fun p => if p = q then { a.peers q with mrtIdx := a.nump % 65536 } else a.peers p
    buf := a.buf ++ [(q, mrtDumpPeer (a.peers q))]
    nump := a.nump + 1 }

namespace MrtState

variable (s : MrtState)

/-- `mrt_dump_v2_hdr`. The number of peers is written as 16 bits; a larger one is an error, and
    then there is no table. -/
def mrtDumpV2Hdr (mrt : Mrt) : MrtState × Mrt :=
  let arg := s.peertable.foldl mrtDumpV2HdrPeer { peers := s.peers }
  let table := if arg.nump ≤ 65535 then
      some { bgpid := s.bgpid, view := mrt.rib, peers := arg.buf }
    else none
  ({ s with peers := arg.peers, starts := s.peertable :: s.starts },
    { mrt with table := table, listed := s.peertable })

/-- `rde_dump_mrt_new`. What `mrt_dump_v2_hdr` returns is ignored. -/
def rdeDumpMrtNew (rib : String) (type : MrtType) : MrtState :=
  if rib ∉ s.ribs then s
  else
    let (s, mrt) := if type = .tableDumpV2 then s.mrtDumpV2Hdr { rib := rib, type := type }
      else (s, { rib := rib, type := type })
    { s with mrts := s.mrts ++ [mrt] }

/-! ## Records -/

/-- `peer_has_add_path` for the peer of a path. -/
def hasAddPath (re : RibEntry) (p : RibPath) : Bool := (s.peers p.peer).addPathRecv re.pt.aid

/-- The loop of `mrt_dump_entry_v2_rib`: the buffers without and with path identifiers. -/
def mrtDumpEntryV2Rib (re : RibEntry) :
    List RibPath → List MrtEntry → List MrtEntry → Option (List MrtEntry × List MrtEntry)
  | [], nb, apb => some (nb, apb)
  | p :: rest, nb, apb =>
    let addpath := s.hasAddPath re p
    match p.attrs with
    | none => none
    | some attrs =>
      let entry : MrtEntry :=
        { index := (s.peers p.peer).mrtIdx
          originated := p.lastchange
          pathId := if addpath then some p.pathId else none
          attrs := attrs
          peer := p.peer }
      if addpath then mrtDumpEntryV2Rib re rest nb (apb ++ [entry])
      else mrtDumpEntryV2Rib re rest (nb ++ [entry]) apb

/-- One of the two records of `mrt_dump_entry_v2`. The number of entries has 16 bits. -/
def mrtRecord (re : RibEntry) (snum : ℕ) (addpath : Bool) (buf : List MrtEntry) : List MrtRecord :=
  if 0 < buf.length % 65536 then
    [{ addpath := addpath, seqnum := snum, pt := re.pt,
       count := buf.length % 65536, entries := buf }]
  else []

/-- `mrt_dump_entry_v2` -/
def mrtDumpEntryV2 (re : RibEntry) (snum : ℕ) : List MrtRecord :=
  match s.mrtDumpEntryV2Rib re re.paths [] [] with
  | none => []
  | some (nbuf, apbuf) => mrtRecord re snum false nbuf ++ mrtRecord re snum true apbuf

/-- `mrt_dump_upcall`. The records of the other formats hold no indices. -/
def mrtDumpUpcall (re : RibEntry) (mrt : Mrt) : Mrt :=
  if mrt.type = .tableDumpV2 then
    { mrt with
      records := mrt.records ++ s.mrtDumpEntryV2 re mrt.seqnum
      seqnum := (mrt.seqnum + 1) % 65536 }
  else { mrt with seqnum := (mrt.seqnum + re.paths.length) % 65536 }

end MrtState

/-! ## Steps -/

/-- What happens in the RDE. `visit n` and `done n` are steps of the walk of dump `n`. -/
inductive MrtEvent where
  | peerAdd (q : Ptr) (id : PeerId) (remoteAs : ℕ)
  | peerUp (id : PeerId) (info : PeerInfo)
  | peerDelete (id : PeerId)
  | reload (bgpid : ℕ) (ribs : List String)
  | dumpNew (rib : String) (type : MrtType)
  | visit (n : ℕ) (re : RibEntry)
  | done (n : ℕ)

/-- A step of the RDE; a walk that has ended visits nothing. -/
def mrtStep (s : MrtState) : MrtEvent → Option MrtState
  | .peerAdd q id remoteAs => s.peerAdd q id remoteAs
  | .peerUp id info => some (s.peerUp id info)
  | .peerDelete id => some (s.peerDelete id)
  | .reload bgpid ribs => some { s with bgpid := bgpid, ribs := ribs }
  | .dumpNew rib type => some (s.rdeDumpMrtNew rib type)
  | .visit n re =>
    match s.mrts[n]? with
    | some mrt =>
      if mrt.running then some { s with mrts := s.mrts.set n (s.mrtDumpUpcall re mrt) } else none
    | none => none
  | .done n =>
    match s.mrts[n]? with
    | some mrt => some { s with mrts := s.mrts.set n { mrt with running := false } }
    | none => none

/-- The RDE after `peer_init`. -/
def mrtInit (bgpid : ℕ) (ribs : List String) (self : Ptr) : MrtState :=
  { bgpid := bgpid
    ribs := ribs
    peers := fun _ => { id := peerself }
    peertable := [self]
    mrts := []
    added := [self]
    starts := [] }

/-! ## What Indices Refer To -/

/-- The peer that an index of a dump refers to. -/
def Mrt.refersTo (mrt : Mrt) (index : ℕ) : Option Ptr :=
  (mrt.table.bind fun t => t.peers[index]?).map Prod.fst

/-- All entries of a record refer to the peers of their paths. -/
def MrtRecord.Refers (mrt : Mrt) (r : MrtRecord) : Prop :=
  ∀ e ∈ r.entries, mrt.refersTo e.index = some e.peer

/-- All entries of a dump refer to the peers of their paths. -/
def Mrt.AllRefer (mrt : Mrt) : Prop := ∀ r ∈ mrt.records, r.Refers mrt

/-- All entries of all dumps refer to the peers of their paths. -/
def MrtState.AllRefer (s : MrtState) : Prop := ∀ mrt ∈ s.mrts, mrt.AllRefer

instance (s : MrtState) : Decidable s.AllRefer :=
  inferInstanceAs (Decidable (∀ mrt ∈ s.mrts, ∀ r ∈ mrt.records, ∀ e ∈ r.entries,
    mrt.refersTo e.index = some e.peer))

/-- The place of a peer in the last table that lists it, as far as 16 bits tell. -/
def place (starts : List (List Ptr)) (q : Ptr) : ℕ :=
  match starts.find? (fun l => q ∈ l) with
  | some l => l.idxOf q % 65536
  | none => 0

/-- A peer was listed when the dump started, and has the same place in the last table that lists
    it. -/
def MrtState.SamePlace (s : MrtState) (mrt : Mrt) (q : Ptr) : Prop :=
  mrt.listed.length ≤ 65535 ∧ mrt.listed[place s.starts q]? = some q

/-- The list that a path belongs to ends up in a record: the number of its entries does not
    vanish in 16 bits. -/
def MrtState.Written (s : MrtState) (re : RibEntry) (p : RibPath) : Prop :=
  0 < (re.paths.filter fun x => s.hasAddPath re x = s.hasAddPath re p).length % 65536

/-- A visit writes paths of peers only that have kept their places. -/
def KeepsPlaces (s : MrtState) : MrtEvent → Prop
  | .visit n re => ∀ mrt ∈ s.mrts[n]?, mrt.type = .tableDumpV2 →
      (∀ p ∈ re.paths, p.attrs.isSome) → ∀ p ∈ re.paths, s.Written re p → s.SamePlace mrt p.peer
  | _ => True

/-! ## Invariant -/

/-- The table of a dump lists the peers in their order, unless there are too many. -/
def Mrt.TableOk (mrt : Mrt) : Prop :=
  mrt.type = .tableDumpV2 → ∀ i q, mrt.refersTo i = some q ↔
    mrt.listed.length ≤ 65535 ∧ mrt.listed[i]? = some q

/-- Indices are places, and only peers that were added are listed. -/
structure MrtInv (s : MrtState) : Prop where
  mrtIdx : ∀ q, (s.peers q).mrtIdx = place s.starts q
  nodup : s.peertable.Nodup
  added : ∀ q ∈ s.peertable, q ∈ s.added
  started : ∀ l ∈ s.starts, ∀ q ∈ l, q ∈ s.added
  tables : ∀ mrt ∈ s.mrts, mrt.TableOk

section Table

/-- The callback on all peers of a list without duplicates. -/
theorem foldl_hdrPeer {l : List Ptr} (hl : l.Nodup) (a : CbArg) :
    (l.foldl mrtDumpV2HdrPeer a).nump = a.nump + l.length ∧
    (l.foldl mrtDumpV2HdrPeer a).buf.map Prod.fst = a.buf.map Prod.fst ++ l ∧
    ∀ q, ((l.foldl mrtDumpV2HdrPeer a).peers q).mrtIdx =
      if q ∈ l then (a.nump + l.idxOf q) % 65536 else (a.peers q).mrtIdx := by
  induction l generalizing a with
  | nil => exact ⟨rfl, (List.append_nil _).symm, fun q => rfl⟩
  | cons x l ih =>
    obtain ⟨hx, hrest⟩ := List.nodup_cons.mp hl
    obtain ⟨hnump, hbuf, hidx⟩ := ih hrest (mrtDumpV2HdrPeer a x)
    refine ⟨?_, ?_, fun q => ?_⟩
    · rw [List.foldl_cons, hnump]
      simp only [mrtDumpV2HdrPeer, List.length_cons]
      omega
    · rw [List.foldl_cons, hbuf]
      simp [mrtDumpV2HdrPeer]
    · rw [List.foldl_cons, hidx]
      by_cases hq : q = x
      · -- the peer itself: the rest of the list leaves it alone
        subst hq
        simp [mrtDumpV2HdrPeer, hx]
      · have hne : x ≠ q := Ne.symm hq
        simp [mrtDumpV2HdrPeer, hq, List.idxOf_cons_ne _ hne, Nat.add_assoc, Nat.add_comm 1]

theorem refersTo_some {mrt : Mrt} {t : PeerIndexTable} (ht : mrt.table = some t) (i : ℕ) :
    mrt.refersTo i = (t.peers.map Prod.fst)[i]? := by
  simp [Mrt.refersTo, ht]

theorem refersTo_none {mrt : Mrt} (ht : mrt.table = none) (i : ℕ) : mrt.refersTo i = none := by
  simp [Mrt.refersTo, ht]

theorem place_cons (l : List Ptr) (starts : List (List Ptr)) (q : Ptr) :
    place (l :: starts) q = if q ∈ l then l.idxOf q % 65536 else place starts q := by
  unfold place
  by_cases hq : q ∈ l
  · simp [hq]
  · simp [hq]

theorem place_of_notMem {starts : List (List Ptr)} {q : Ptr} (h : ∀ l ∈ starts, q ∉ l) :
    place starts q = 0 := by
  have hnone : starts.find? (fun l => q ∈ l) = none := by
    simpa using h
  simp [place, hnone]

end Table

namespace MrtInv

variable {s s' : MrtState}

/-- A peer changes, but for its index. -/
theorem setPeer (h : MrtInv s) {q : Ptr} {peer : MrtPeer}
    (hidx : peer.mrtIdx = (s.peers q).mrtIdx) : MrtInv (s.setPeer q peer) := by
  refine ⟨fun p => ?_, h.nodup, h.added, h.started, h.tables⟩
  show (if p = q then peer else s.peers p).mrtIdx = place s.starts p
  by_cases hp : p = q
  · rw [if_pos hp, hidx, hp]
    exact h.mrtIdx q
  · rw [if_neg hp]
    exact h.mrtIdx p

/-- A new peer keeps the invariant of the indexes. -/
theorem peerAdd (h : MrtInv s) {q : Ptr} {id : PeerId} {remoteAs : ℕ}
    (hstep : s.peerAdd q id remoteAs = some s') : MrtInv s' := by
  unfold MrtState.peerAdd at hstep
  split at hstep
  · obtain rfl := Option.some.inj hstep
    exact h.setPeer rfl
  · split_ifs at hstep with hq
    obtain rfl := Option.some.inj hstep
    -- nobody listed the new peer so far
    have hplace : place s.starts q = 0 := place_of_notMem fun l hl hql => hq (h.started l hl q hql)
    have hidx : ({ id := id, remoteAs := remoteAs } : MrtPeer).mrtIdx = (s.peers q).mrtIdx := by
      rw [h.mrtIdx q, hplace]
    have hset := h.setPeer hidx
    have hperm := List.perm_orderedInsert
      (fun a b => ((s.setPeer q { id := id, remoteAs := remoteAs }).peers a).id
        ≤ ((s.setPeer q { id := id, remoteAs := remoteAs }).peers b).id) q s.peertable
    refine ⟨hset.mrtIdx, ?_, fun p hp => ?_, fun l hl p hp => ?_, h.tables⟩
    · exact hperm.nodup_iff.mpr (List.nodup_cons.mpr ⟨fun hin => hq (h.added q hin), h.nodup⟩)
    · rcases List.mem_cons.mp (hperm.mem_iff.mp hp) with rfl | hp
      · exact List.mem_cons_self
      · exact List.mem_cons_of_mem _ (h.added p hp)
    · exact List.mem_cons_of_mem _ (h.started l hl p hp)

theorem peerUp (h : MrtInv s) (id : PeerId) (info : PeerInfo) : MrtInv (s.peerUp id info) := by
  unfold MrtState.peerUp
  split
  · exact h.setPeer rfl
  · exact h

theorem peerDelete (h : MrtInv s) (id : PeerId) : MrtInv (s.peerDelete id) := by
  unfold MrtState.peerDelete
  split
  · exact ⟨h.mrtIdx, h.nodup.erase _, fun p hp => h.added p (List.mem_of_mem_erase hp), h.started,
      h.tables⟩
  · exact h

theorem snocMrt (h : MrtInv s) {mrt : Mrt} (hok : mrt.TableOk) :
    MrtInv { s with mrts := s.mrts ++ [mrt] } := by
  refine ⟨h.mrtIdx, h.nodup, h.added, h.started, fun m hm => ?_⟩
  rcases List.mem_append.mp hm with hm | hm
  · exact h.tables m hm
  · obtain rfl := List.mem_singleton.mp hm
    exact hok

/-- The table of a dump: every peer gets the place it is listed at. -/
theorem mrtDumpV2Hdr (h : MrtInv s) (mrt : Mrt) :
    MrtInv (s.mrtDumpV2Hdr mrt).1 ∧ (s.mrtDumpV2Hdr mrt).2.TableOk := by
  obtain ⟨hnump, hbuf, hidx⟩ := foldl_hdrPeer h.nodup { peers := s.peers }
  rw [Nat.zero_add] at hnump
  refine ⟨⟨fun q => ?_, h.nodup, h.added, fun l hl q hq => ?_, h.tables⟩, fun _ i q => ?_⟩
  · show _ = place (s.peertable :: s.starts) q
    rw [place_cons]
    refine (hidx q).trans ?_
    rw [Nat.zero_add, h.mrtIdx q]
  · rcases List.mem_cons.mp hl with rfl | hl
    · exact h.added q hq
    · exact h.started l hl q hq
  · show _ ↔ s.peertable.length ≤ 65535 ∧ s.peertable[i]? = some q
    unfold MrtState.mrtDumpV2Hdr
    dsimp only
    rw [hnump]
    by_cases hlen : s.peertable.length ≤ 65535
    · rw [if_pos hlen, refersTo_some rfl, hbuf]
      exact (and_iff_right hlen).symm
    · rw [if_neg hlen, refersTo_none rfl]
      exact iff_of_false (fun hc => nomatch hc) fun hc => hlen hc.1

theorem rdeDumpMrtNew (h : MrtInv s) (rib : String) (type : MrtType) :
    MrtInv (s.rdeDumpMrtNew rib type) := by
  unfold MrtState.rdeDumpMrtNew
  by_cases hrib : rib ∉ s.ribs
  · rw [if_pos hrib]
    exact h
  · rw [if_neg hrib]
    by_cases htype : type = .tableDumpV2
    · rw [if_pos htype]
      obtain ⟨hinv, hok⟩ := h.mrtDumpV2Hdr { rib := rib, type := type }
      exact hinv.snocMrt hok
    · rw [if_neg htype]
      exact h.snocMrt fun hc => absurd hc htype

theorem setMrt (h : MrtInv s) {n : ℕ} {mrt : Mrt} (hok : mrt.TableOk) :
    MrtInv { s with mrts := s.mrts.set n mrt } := by
  refine ⟨h.mrtIdx, h.nodup, h.added, h.started, fun m hm => ?_⟩
  rcases List.mem_or_eq_of_mem_set hm with hm | rfl
  · exact h.tables m hm
  · exact hok

end MrtInv

/-- A visit leaves the table alone. -/
theorem mrtDumpUpcall_table (s : MrtState) (re : RibEntry) {mrt : Mrt} (hok : mrt.TableOk) :
    (s.mrtDumpUpcall re mrt).TableOk := by
  unfold MrtState.mrtDumpUpcall
  split_ifs
  · exact hok
  · exact hok

theorem mrtStep_visit {s s' : MrtState} {n : ℕ} {re : RibEntry}
    (hstep : mrtStep s (.visit n re) = some s') :
    ∃ mrt, s.mrts[n]? = some mrt ∧ s' =
      { s with mrts := s.mrts.set n (s.mrtDumpUpcall re mrt) } := by
  simp only [mrtStep] at hstep
  split at hstep
  · next mrt hmrt =>
    split_ifs at hstep
    exact ⟨mrt, hmrt, (Option.some.inj hstep).symm⟩
  · exact nomatch hstep

theorem mrtStep_done {s s' : MrtState} {n : ℕ} (hstep : mrtStep s (.done n) = some s') :
    ∃ mrt, s.mrts[n]? = some mrt ∧ s' =
      { s with mrts := s.mrts.set n { mrt with running := false } } := by
  simp only [mrtStep] at hstep
  split at hstep
  · next mrt hmrt => exact ⟨mrt, hmrt, (Option.some.inj hstep).symm⟩
  · exact nomatch hstep

/-- Every step keeps the invariant. -/
theorem mrtStep_inv {s s' : MrtState} {e : MrtEvent} (h : MrtInv s)
    (hstep : mrtStep s e = some s') :
    MrtInv s' := by
  cases e with
  | peerAdd q id remoteAs => exact h.peerAdd hstep
  | peerUp id info =>
    obtain rfl := Option.some.inj hstep
    exact h.peerUp id info
  | peerDelete id =>
    obtain rfl := Option.some.inj hstep
    exact h.peerDelete id
  | reload bgpid ribs =>
    obtain rfl := Option.some.inj hstep
    exact ⟨h.mrtIdx, h.nodup, h.added, h.started, h.tables⟩
  | dumpNew rib type =>
    obtain rfl := Option.some.inj hstep
    exact h.rdeDumpMrtNew rib type
  | visit n re =>
    obtain ⟨mrt, hmrt, rfl⟩ := mrtStep_visit hstep
    exact h.setMrt (mrtDumpUpcall_table s re (h.tables mrt (List.mem_of_getElem? hmrt)))
  | done n =>
    obtain ⟨mrt, hmrt, rfl⟩ := mrtStep_done hstep
    exact h.setMrt (h.tables mrt (List.mem_of_getElem? hmrt))

/-- The RDE starts with `peerself`. -/
theorem mrtInit_inv (bgpid : ℕ) (ribs : List String) (self : Ptr) :
    MrtInv (mrtInit bgpid ribs self) :=
  ⟨fun _ => rfl, List.nodup_singleton self, fun _ hq => hq,
    fun _ hl => absurd hl List.not_mem_nil, fun _ hm => absurd hm List.not_mem_nil⟩

/-! ## Entries -/

section Entries

variable {s : MrtState} {re : RibEntry}

/-- The buffers hold an entry for each path, in the order of the paths. -/
theorem mrtDumpEntryV2Rib_peers {ps : List RibPath} {nb apb nb' apb' : List MrtEntry}
    (h : s.mrtDumpEntryV2Rib re ps nb apb = some (nb', apb')) :
    (∀ p ∈ ps, p.attrs.isSome) ∧
    nb'.map (fun e => (e.index, e.peer)) = nb.map (fun e => (e.index, e.peer)) ++
      (ps.filter fun p => !s.hasAddPath re p).map (fun p => ((s.peers p.peer).mrtIdx, p.peer)) ∧
    apb'.map (fun e => (e.index, e.peer)) = apb.map (fun e => (e.index, e.peer)) ++
      (ps.filter fun p => s.hasAddPath re p).map (fun p => ((s.peers p.peer).mrtIdx, p.peer)) := by
  induction ps generalizing nb apb with
  | nil =>
    obtain ⟨rfl, rfl⟩ := Prod.mk.inj (Option.some.inj h)
    exact ⟨fun p hp => absurd hp List.not_mem_nil, (List.append_nil _).symm,
      (List.append_nil _).symm⟩
  | cons p ps ih =>
    rw [MrtState.mrtDumpEntryV2Rib] at h
    dsimp only at h
    split at h
    · exact nomatch h
    · next attrs hattrs =>
      have hsome : p.attrs.isSome := by rw [hattrs, Option.isSome_some]
      by_cases hap : s.hasAddPath re p = true
      · rw [if_pos hap] at h
        obtain ⟨hall, hn, ha⟩ := ih h
        refine ⟨List.forall_mem_cons.mpr ⟨hsome, hall⟩, ?_, ?_⟩
        · simpa [hap] using hn
        · simpa [hap] using ha
      · rw [if_neg hap] at h
        obtain ⟨hall, hn, ha⟩ := ih h
        refine ⟨List.forall_mem_cons.mpr ⟨hsome, hall⟩, ?_, ?_⟩
        · simpa [hap] using hn
        · simpa [hap] using ha

/-- The loop fails only where the attributes of a path cannot be written. -/
theorem mrtDumpEntryV2Rib_isSome {ps : List RibPath} (h : ∀ p ∈ ps, p.attrs.isSome)
    (nb apb : List MrtEntry) : (s.mrtDumpEntryV2Rib re ps nb apb).isSome := by
  induction ps generalizing nb apb with
  | nil => rfl
  | cons p ps ih =>
    obtain ⟨hp, hrest⟩ := List.forall_mem_cons.mp h
    obtain ⟨attrs, hattrs⟩ := Option.isSome_iff_exists.mp hp
    rw [MrtState.mrtDumpEntryV2Rib]
    dsimp only
    rw [hattrs]
    dsimp only
    split_ifs
    · exact ih hrest _ _
    · exact ih hrest _ _

/-- A property of index and peer of all entries of a record. -/
theorem forall_mrtRecord {buf : List MrtEntry} {ps : List RibPath} {snum : ℕ} {addpath : Bool}
    {idx : RibPath → ℕ} (hbuf : buf.map (fun e => (e.index, e.peer)) =
      ps.map (fun p => (idx p, p.peer)))
    (P : ℕ → Ptr → Prop) :
    (∀ r ∈ MrtState.mrtRecord re snum addpath buf, ∀ e ∈ r.entries, P e.index e.peer) ↔
      (0 < ps.length % 65536 → ∀ p ∈ ps, P (idx p) p.peer) := by
  have hlen : buf.length = ps.length := by
    simpa using congrArg List.length hbuf
  have hall : (∀ e ∈ buf, P e.index e.peer) ↔ ∀ p ∈ ps, P (idx p) p.peer := by
    have hiff : (∀ x ∈ buf.map (fun e => (e.index, e.peer)), P x.1 x.2) ↔
        ∀ x ∈ ps.map (fun p => (idx p, p.peer)), P x.1 x.2 := by rw [hbuf]
    simpa using hiff
  unfold MrtState.mrtRecord
  rw [hlen]
  split_ifs with hpos
  · simp [hpos, hall]
  · simp [hpos]

/-- A property of index and peer of all entries that a visit writes. -/
theorem forall_mrtDumpEntryV2 (s : MrtState) (re : RibEntry) (snum : ℕ) (P : ℕ → Ptr → Prop) :
    (∀ r ∈ s.mrtDumpEntryV2 re snum, ∀ e ∈ r.entries, P e.index e.peer) ↔
      ((∀ p ∈ re.paths, p.attrs.isSome) → ∀ p ∈ re.paths, s.Written re p →
        P (s.peers p.peer).mrtIdx p.peer) := by
  unfold MrtState.mrtDumpEntryV2
  split
  · next hnone =>
    refine iff_of_true (fun r hr => absurd hr List.not_mem_nil) fun hall => ?_
    have hsome : (s.mrtDumpEntryV2Rib re re.paths [] []).isSome :=
      mrtDumpEntryV2Rib_isSome hall [] []
    rw [hnone] at hsome
    exact nomatch hsome
  · next nbuf apbuf hbufs =>
    obtain ⟨hall, hn, ha⟩ := mrtDumpEntryV2Rib_peers hbufs
    rw [List.map_nil, List.nil_append] at hn ha
    rw [List.forall_mem_append, forall_mrtRecord hn P, forall_mrtRecord ha P]
    constructor
    · rintro ⟨hplain, hap⟩ - p hp hw
      by_cases hpath : s.hasAddPath re p = true
      · refine hap ?_ p (List.mem_filter.mpr ⟨hp, hpath⟩)
        simpa [MrtState.Written, hpath] using hw
      · refine hplain ?_ p (List.mem_filter.mpr ⟨hp, by simpa using hpath⟩)
        simpa [MrtState.Written, hpath] using hw
    · intro h
      refine ⟨fun hpos p hp => ?_, fun hpos p hp => ?_⟩
      · obtain ⟨hmem, hpath⟩ := List.mem_filter.mp hp
        rw [Bool.not_eq_true'] at hpath
        refine h hall p hmem ?_
        simpa [MrtState.Written, hpath] using hpos
      · obtain ⟨hmem, hpath⟩ := List.mem_filter.mp hp
        refine h hall p hmem ?_
        simpa [MrtState.Written, hpath] using hpos

end Entries

/-! ## All Indices -/

/-- The index of a peer refers to it in a table where it keeps its place. -/
theorem refersTo_mrtIdx {s : MrtState} (h : MrtInv s) {mrt : Mrt} (hmrt : mrt ∈ s.mrts)
    (htype : mrt.type = .tableDumpV2) (q : Ptr) :
    mrt.refersTo (s.peers q).mrtIdx = some q ↔ s.SamePlace mrt q := by
  rw [h.mrtIdx q]
  exact h.tables mrt hmrt htype _ q

/-- The dump at `n` is replaced by one that is as right. -/
theorem allRefer_set {s : MrtState} {n : ℕ} {mrt mrt' : Mrt} (hmrt : s.mrts[n]? = some mrt)
    {P : Prop} (hiff : mrt'.AllRefer ↔ mrt.AllRefer ∧ P) :
    MrtState.AllRefer { s with mrts := s.mrts.set n mrt' } ↔ s.AllRefer ∧ P := by
  obtain ⟨hn, rfl⟩ := List.getElem?_eq_some_iff.mp hmrt
  have hmem : mrt' ∈ s.mrts.set n mrt' := List.mem_set hn mrt'
  constructor
  · intro h
    obtain ⟨hold, hP⟩ := hiff.mp (h mrt' hmem)
    refine ⟨fun m hm => ?_, hP⟩
    obtain ⟨i, hi, rfl⟩ := List.mem_iff_getElem.mp hm
    by_cases hin : i = n
    · subst hin
      exact hold
    · refine h _ (List.mem_iff_getElem.mpr ⟨i, by simpa using hi, ?_⟩)
      exact List.getElem_set_ne (Ne.symm hin) _
  · rintro ⟨h, hP⟩ m hm
    rcases List.mem_or_eq_of_mem_set hm with hm | rfl
    · exact h m hm
    · exact hiff.mpr ⟨h _ (List.getElem_mem hn), hP⟩

/-- A visit keeps a dump right exactly where the paths it writes are of peers that have kept
    their places. -/
theorem allRefer_upcall {s : MrtState} (h : MrtInv s) {mrt : Mrt} (hmrt : mrt ∈ s.mrts)
    (re : RibEntry) : (s.mrtDumpUpcall re mrt).AllRefer ↔ mrt.AllRefer ∧
      (mrt.type = .tableDumpV2 → (∀ p ∈ re.paths, p.attrs.isSome) →
        ∀ p ∈ re.paths, s.Written re p → s.SamePlace mrt p.peer) := by
  unfold MrtState.mrtDumpUpcall
  by_cases htype : mrt.type = .tableDumpV2
  · rw [if_pos htype]
    have hnew := forall_mrtDumpEntryV2 s re mrt.seqnum fun i q => mrt.refersTo i = some q
    simp only [refersTo_mrtIdx h hmrt htype] at hnew
    refine List.forall_mem_append.trans (and_congr Iff.rfl ?_)
    exact hnew.trans ⟨fun hc _ => hc, fun hc => hc htype⟩
  · rw [if_neg htype]
    exact (and_iff_left fun hc => absurd hc htype).symm

theorem allRefer_snoc {s : MrtState} {mrt : Mrt} (hmrt : mrt.records = []) :
    MrtState.AllRefer { s with mrts := s.mrts ++ [mrt] } ↔ s.AllRefer := by
  refine List.forall_mem_append.trans (and_iff_left fun m hm r hr => ?_)
  obtain rfl := List.mem_singleton.mp hm
  rw [hmrt] at hr
  exact absurd hr List.not_mem_nil

/-- One step keeps all indices right exactly if it meets the condition. -/
theorem mrtStep_allRefer {s s' : MrtState} {e : MrtEvent} (h : MrtInv s)
    (hstep : mrtStep s e = some s') : s'.AllRefer ↔ s.AllRefer ∧ KeepsPlaces s e := by
  cases e with
  | peerAdd q id remoteAs =>
    refine (Iff.trans ?_ (and_iff_left trivial).symm)
    have hmrts : s'.mrts = s.mrts := by
      change s.peerAdd q id remoteAs = some s' at hstep
      unfold MrtState.peerAdd at hstep
      split at hstep
      · obtain rfl := Option.some.inj hstep
        rfl
      · split_ifs at hstep
        obtain rfl := Option.some.inj hstep
        rfl
    unfold MrtState.AllRefer
    rw [hmrts]
  | peerUp id info =>
    obtain rfl := Option.some.inj hstep
    refine (Iff.trans ?_ (and_iff_left trivial).symm)
    unfold MrtState.peerUp
    split
    · exact Iff.rfl
    · exact Iff.rfl
  | peerDelete id =>
    obtain rfl := Option.some.inj hstep
    refine (Iff.trans ?_ (and_iff_left trivial).symm)
    unfold MrtState.peerDelete
    split
    · exact Iff.rfl
    · exact Iff.rfl
  | reload bgpid ribs =>
    obtain rfl := Option.some.inj hstep
    exact (and_iff_left trivial).symm
  | dumpNew rib type =>
    obtain rfl := Option.some.inj hstep
    refine (Iff.trans ?_ (and_iff_left trivial).symm)
    unfold MrtState.rdeDumpMrtNew
    by_cases hrib : rib ∉ s.ribs
    · rw [if_pos hrib]
    · rw [if_neg hrib]
      by_cases htype : type = .tableDumpV2
      · rw [if_pos htype]
        exact allRefer_snoc (s := (s.mrtDumpV2Hdr { rib := rib, type := type }).1) rfl
      · rw [if_neg htype]
        exact allRefer_snoc rfl
  | visit n re =>
    obtain ⟨mrt, hmrt, rfl⟩ := mrtStep_visit hstep
    refine (allRefer_set hmrt (allRefer_upcall h (List.mem_of_getElem? hmrt) re)).trans ?_
    simp [KeepsPlaces, hmrt]
  | done n =>
    obtain ⟨mrt, hmrt, rfl⟩ := mrtStep_done hstep
    exact allRefer_set hmrt (and_iff_left trivial).symm

/-- A wrong index stays wrong. -/
theorem allRefer_stays_wrong {s s' : MrtState} {es : List MrtEvent} (hinv : MrtInv s)
    (hwrong : ¬ s.AllRefer) (h : Run mrtStep (fun _ _ => True) s es s') : ¬ s'.AllRefer := by
  have hkeep := h.invariant (P := fun s => MrtInv s ∧ ¬ s.AllRefer)
    (fun s e s₁ hs _ hstep => ⟨mrtStep_inv hs.1 hstep, fun hc =>
      hs.2 ((mrtStep_allRefer hs.1 hstep).mp hc).1⟩) ⟨hinv, hwrong⟩
  exact hkeep.2

/-- In a run of the RDE all indices of all dumps refer, in the tables of these dumps, to the
    peers of their paths exactly if every visit of a dump writes only paths of peers that have the
    same place in the table of the dump and in the last table that lists them. -/
theorem allRefer_iff {bgpid : ℕ} {ribs : List String} {self : Ptr} {es : List MrtEvent}
    {s : MrtState} (h : Run mrtStep (fun _ _ => True) (mrtInit bgpid ribs self) es s) :
    s.AllRefer ↔ Run mrtStep KeepsPlaces (mrtInit bgpid ribs self) es s := by
  have hinit : (mrtInit bgpid ribs self).AllRefer := fun m hm => absurd hm List.not_mem_nil
  have hinv := mrtInit_inv bgpid ribs self
  generalize mrtInit bgpid ribs self = s₀ at h hinit hinv
  induction h with
  | nil s => exact iff_of_true hinit (Run.nil s)
  | @cons s s₁ s' e es _ hstep hrun ih =>
    have hone := mrtStep_allRefer hinv hstep
    by_cases hok : KeepsPlaces s e
    · refine (ih (hone.mpr ⟨hinit, hok⟩) (mrtStep_inv hinv hstep)).trans ?_
      refine ⟨fun hr => Run.cons hok hstep hr, fun hr => ?_⟩
      cases hr with
      | cons _ hstep' hr =>
        obtain rfl := Option.some.inj (hstep.symm.trans hstep')
        exact hr
    · -- records stay, so what is wrong once is wrong at the end
      have hwrong : ¬ s₁.AllRefer := fun hc => hok (hone.mp hc).2
      refine iff_of_false ?_ fun hr => ?_
      · exact allRefer_stays_wrong (mrtStep_inv hinv hstep) hwrong hrun
      · cases hr with
        | cons hok' _ _ => exact hok hok'

/-- Two dumps of a RDE with three peers: the second one starts after the first peer is gone, and
    then the first one writes a path of the second peer. -/
def shiftedRun : List MrtEvent :=
  [.peerAdd 10 2 65010, .peerAdd 11 3 65011, .dumpNew "Loc-RIB" .tableDumpV2, .peerDelete 2,
    .dumpNew "Adj-RIB-In" .tableDumpV2,
    .visit 0 { pt := ⟨.inet, 0x0a000000, 8⟩
               paths := [{ peer := 11, pathId := 0, lastchange := 0, attrs := some [] }] }]

/-- The entry refers to the peer that is gone. -/
theorem shifted_index_wrong : ∃ s, Run mrtStep (fun _ _ => True)
    (mrtInit 1 ["Adj-RIB-In", "Loc-RIB"] 1) shiftedRun s ∧ ¬ s.AllRefer :=
  exists_run mrtStep (fun _ _ => True) _ shiftedRun (fun s => ¬ s.AllRefer) (by decide +kernel)

/-- One dump of a RDE with two peers. -/
def singleRun : List MrtEvent :=
  [.peerAdd 10 2 65010, .dumpNew "Loc-RIB" .tableDumpV2,
    .visit 0 { pt := ⟨.inet, 0x0a000000, 8⟩
               paths := [{ peer := 10, pathId := 0, lastchange := 0, attrs := some [] }] }]

theorem allRefer_iff_sample : ∃ s,
    Run mrtStep (fun _ _ => True) (mrtInit 1 ["Loc-RIB"] 1) singleRun s ∧
    Run mrtStep KeepsPlaces (mrtInit 1 ["Loc-RIB"] 1) singleRun s := by
  obtain ⟨s, hrun, hall⟩ := exists_run mrtStep (fun _ _ => True) (mrtInit 1 ["Loc-RIB"] 1)
    singleRun (fun s => s.AllRefer) (by decide +kernel)
  exact ⟨s, hrun, (allRefer_iff hrun).mp hall⟩

end Bgpd.Rde.MrtIndex
