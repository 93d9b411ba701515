import Bgpd.Rde.AdjoutSpec
import Bgpd.Rde.PrefixCmp

/-!
# Walks over an Adj-RIB-Out

Model of `adjout_prefix_dump_new` and `adjout_prefix_dump_r`. The Adj-RIB-Outs have no tables
of their own, so a walk goes over the prefix table, which all RIBs share. The entry at which it
pauses is referenced by the context.

The table is the list of its entries in the order of `pt_prefix_cmp`. Entries are found by
their key, as no two entries of the table compare equal. A round goes over the part of the
table that begins with its first entry, and changes only the entries that it visits. `none`
stands for a program that stops: with a message, or because of an access through a pointer to
an entry that was freed.

## Layout

- `ptFirst`, `ptUnref`: the table
- `visit`, `dumpLoop`, `adjoutPrefixDumpR`: a round
- `walkStep`: what else can happen to the table, with a log of calls and losses
-/

namespace Bgpd.Rde.AdjoutWalk

open Nlri (ptPrefixCmp ptFill padTo)

/-! ## The table -/

/-- `struct pt_entry` -/
structure PtNode where
  pt : Nlri.PtEntry
  refcnt : ℕ := 0
  adjout : List AdjoutPrefix := []
  deriving DecidableEq

/-- What a run does that walks and entries notice. -/
inductive WalkObs where
  /-- The callback of the context is called for the entry of its peer with the path id. -/
  | call (addr : Ptr) (pt : Nlri.PtEntry) (pathIdTx : ℕ)
  /-- `ctx_done` of the context is called. -/
  | done (addr : Ptr)
  /-- The peer does not have the entry any more. -/
  | lost (pt : Nlri.PtEntry) (peer : PeerId) (pathIdTx : ℕ)
  deriving DecidableEq

/-- `pt_fill` of an address that is zero but for the family. There is no case for flowspec, and
    the object that is returned then compares greater than all entries. The type of an EVPN
    address is not compared. -/
def ptFillFirst : Aid → Option Nlri.PtEntry
  | .inet => some (ptFill (.inet (padTo 4 [])) 0)
  | .inet6 => some (ptFill (.inet6 (padTo 16 [])) 0)
  | .vpn4 => some (ptFill (.vpn4 (padTo 8 []) (padTo 4 []) []) 0)
  | .vpn6 => some (ptFill (.vpn6 (padTo 8 []) (padTo 16 []) []) 0)
  | .evpn => some (ptFill (.evpn { type := .type2, rd := padTo 8 [], ethtag := padTo 4 [] }) 0)
  | .flowspec4 | .flowspec6 => none

/-- The entry is before what `RB_NFIND` looks for. -/
def isBefore (needle : Option Nlri.PtEntry) (n : PtNode) : Bool :=
  match needle with
  | none => true
  | some k => ptPrefixCmp k n.pt = .gt

/-- `pt_first`: the table before the first entry of the family, and from it on. -/
def ptFirst (aid : Option Aid) (table : List PtNode) : List PtNode × List PtNode :=
  match aid with
  | none => ([], table)
  | some aid => (table.takeWhile (isBefore (ptFillFirst aid)),
      table.dropWhile (isBefore (ptFillFirst aid)))

/-- The entries of all peers that are lost with an entry of the table. -/
def lostWith (n : PtNode) : List WalkObs :=
  n.adjout.flatMap fun p => p.peermap.map fun q => .lost n.pt q p.pathIdTx

/-- The table before an entry, the entry and the table behind it. -/
def ptSplit (k : Nlri.PtEntry) (table : List PtNode) :
    Option (List PtNode × PtNode × List PtNode) :=
  match table.dropWhile fun n => n.pt ≠ k with
  | [] => none
  | n :: rest => some (table.takeWhile fun n => n.pt ≠ k, n, rest)

/-- `pt_unref` with `pt_remove`: the rest of the table from the entry on, if it stays, and what
    is lost with it. -/
def PtNode.unref (n : PtNode) (rest : List PtNode) : Option (List PtNode × List WalkObs) :=
  if n.refcnt = 0 then none
  else if n.refcnt = 1 then some (rest, lostWith n)
  else some ({ n with refcnt := n.refcnt - 1 } :: rest, [])

/-- `pt_unref` of an entry in the table. -/
def ptUnref (k : Nlri.PtEntry) (table : List PtNode) : Option (List PtNode × List WalkObs) :=
  (ptSplit k table).bind fun (pre, n, rest) =>
    (n.unref rest).map fun (rest, log) => (pre ++ rest, log)

/-! ## Rounds -/

/-- `struct rib_context`. `bid` is the peer if it has an `adjout_bid`. -/
structure WalkContext where
  /-- The address of the object. -/
  addr : Ptr
  bid : Option PeerId
  aid : Option Aid
  count : ℕ
  arg : ℕ
  pt : Option Nlri.PtEntry := none
  deriving DecidableEq

/-- What a callback does with the entry it is called for: the entry is withdrawn, and the
    pending queue takes a reference of the destination. -/
structure Effect where
  withdraw : Bool := false
  ref : Bool := false
  deriving DecidableEq

/-- `ctx_prefix_call` -/
abbrev Upcall := Nlri.PtEntry → AdjoutPrefix → Effect

/-- The calls of the callback for the entries of a destination. -/
def visitEntries (addr : Ptr) (q : PeerId) (upcall : Upcall) :
    List (ℕ × AdjoutPrefix) → PtNode → PtNode × List WalkObs
  | [], n => (n, [])
  | (i, p) :: es, n =>
    let fx := upcall n.pt p
    let n := { n with
      refcnt := if fx.ref then n.refcnt + 1 else n.refcnt
      adjout := if fx.withdraw then adjoutPrefixUnlink q i n.adjout else n.adjout }
    let (n', log) := visitEntries addr q upcall es n
    (n', .call addr n.pt p.pathIdTx ::
      ((if fx.withdraw then [.lost n.pt q p.pathIdTx] else []) ++ log))

/-- The body of the loop of `adjout_prefix_dump_r`. -/
def visit (addr : Ptr) (q : PeerId) (upcall : Upcall) (n : PtNode) : PtNode × List WalkObs :=
  let (n, log) := visitEntries addr q upcall (adjoutPrefixes q n.adjout) n
  ({ n with adjout := adjoutPrefixCollect n.adjout }, log)

/-- The entry of the table is of the family of the walk. -/
def aidOk (aid : Option Aid) (n : PtNode) : Bool := aid = none ∨ aid = some n.pt.aid

/-- The loop of `adjout_prefix_dump_r`: the rest of the table afterwards, and the entry at which
    the round pauses. -/
def dumpLoop (ctx : WalkContext) (q : PeerId) (upcall : Upcall) :
    ℕ → List PtNode → List PtNode × List WalkObs × Option Nlri.PtEntry
  | _, [] => ([], [], none)
  | i, n :: next =>
    if !aidOk ctx.aid n then
      let (next, log, paused) := dumpLoop ctx q upcall i next
      (n :: next, log, paused)
    else if ctx.count ≠ 0 ∧ i ≥ ctx.count then
      -- store and lock last element
      ({ n with refcnt := n.refcnt + 1 } :: next, [], some n.pt)
    else
      let (n, log) := visit ctx.addr q upcall n
      let (next, log', paused) := dumpLoop ctx q upcall (i + 1) next
      (n :: next, log ++ log', paused)

/-- The prefix table, the peers that have an `adjout_bid` and the contexts. -/
structure AdjoutWalks where
  table : List PtNode := []
  bids : List PeerId := []
  dumps : List WalkContext := []

namespace AdjoutWalks

variable (s : AdjoutWalks)

/-- A change of the entry of the table with a key. -/
def modifyNode (k : Nlri.PtEntry) (f : PtNode → PtNode) : AdjoutWalks :=
  { s with table := s.table.map fun n => if n.pt = k then f n else n }

/-- `LIST_REMOVE` of the context at an address. -/
def dropContext (addr : Ptr) : AdjoutWalks :=
  { s with dumps := s.dumps.filter fun c => c.addr ≠ addr }

/-- The context at an address pauses. -/
def setPt (addr : Ptr) (pt : Option Nlri.PtEntry) : AdjoutWalks :=
  { s with dumps := s.dumps.map fun c => if c.addr = addr then { c with pt := pt } else c }

/-- The start of a round, with `prefix_restart`: the table before the first entry to visit, and
    from it on. -/
def roundStart (ctx : WalkContext) : Option (List PtNode × List PtNode × List WalkObs) :=
  match ctx.pt with
  | none => some ((ptFirst ctx.aid s.table).1, (ptFirst ctx.aid s.table).2, [])
  | some k =>
    -- be careful when this is the last reference to pte
    (ptSplit k s.table).bind fun (pre, n, rest) =>
      (n.unref rest).map fun (rest, log) => (pre, rest, log)

/-- `adjout_prefix_dump_r` -/
def adjoutPrefixDumpR (upcall : Upcall) (addr : Ptr) : Option (AdjoutWalks × List WalkObs) := do
  let ctx ← s.dumps.find? fun c => c.addr = addr
  match ctx.bid with
  -- no adjout_bid -> no adj-rib-out
  | none => some (s.dropContext addr, [.done addr])
  | some q =>
    let (pre, rest, lost) ← s.roundStart ctx
    let (rest, log, paused) := dumpLoop ctx q upcall 0 rest
    let s := { s with table := pre ++ rest }
    match paused with
    | some k => some (s.setPt addr (some k), lost ++ log)
    | none => some (s.dropContext addr, lost ++ log ++ [.done addr])

/-- `adjout_prefix_dump_new` -/
def adjoutPrefixDumpNew (upcall : Upcall) (addr : Ptr) (peer : PeerId) (aid : Option Aid)
    (count arg : ℕ) : Option (AdjoutWalks × List WalkObs) :=
  if addr ∈ s.dumps.map (·.addr) then none
  else
    let bid := if peer ∈ s.bids then some peer else none
    let ctx : WalkContext := { addr := addr, bid := bid, aid := aid, count := count, arg := arg }
    let s := { s with dumps := ctx :: s.dumps }
    -- requested a sync traversal
    if count = 0 then s.adjoutPrefixDumpR upcall addr else some (s, [])

/-- `rib_dump_free` with `adjout_prefix_dump_cleanup` -/
def ribDumpFree (ctx : WalkContext) : Option (AdjoutWalks × List WalkObs) :=
  match ctx.pt with
  | none => some (s.dropContext ctx.addr, [.done ctx.addr])
  | some k =>
    (ptUnref k s.table).map fun (table, log) =>
      ({ s with table := table }.dropContext ctx.addr, .done ctx.addr :: log)

/-- The contexts that are freed one after the other. -/
def freeAll : List WalkContext → AdjoutWalks → Option (AdjoutWalks × List WalkObs)
  | [], s => some (s, [])
  | c :: cs, s =>
    (s.ribDumpFree c).bind fun (s, log) =>
      (freeAll cs s).map fun (s, log') => (s, log ++ log')

/-! ## Other changes -/

/-- `pt_get`, and `pt_add` if there is no such entry. -/
def ptGet (pt : Nlri.PtEntry) : AdjoutWalks :=
  if s.table.any fun n => ptPrefixCmp pt n.pt = .eq then s
  else
    { s with table := s.table.takeWhile (fun n => ptPrefixCmp n.pt pt = .lt) ++
        { pt := pt } :: s.table.dropWhile fun n => ptPrefixCmp n.pt pt = .lt }

/-- The references of an entry that contexts hold. -/
def cursors (k : Nlri.PtEntry) : ℕ := s.dumps.countP fun c => c.pt = some k

/-- `pt_unref` by someone who holds a reference, which is none of those that contexts hold. -/
def unref (k : Nlri.PtEntry) : Option (AdjoutWalks × List WalkObs) :=
  (s.table.find? fun n => n.pt = k).bind fun n =>
    if s.cursors k < n.refcnt then
      (ptUnref k s.table).map fun (table, log) => ({ s with table := table }, log)
    else none

/-- What `adjout_prefix_update` does to the array of a destination if the entry changes. -/
def updateArray (q : PeerId) (attrs : AdjoutAttr) (id : ℕ) (arr : List AdjoutPrefix) :
    List AdjoutPrefix :=
  match adjoutPrefixGet q id arr with
  | none => adjoutPrefixLink q attrs id arr
  -- unlink prefix so it can be relinked below
  | some i => adjoutPrefixLink q attrs id (adjoutPrefixUnlink q i arr)

/-- What `adjout_prefix_withdraw` does to the array of a destination. -/
def withdrawArray (q : PeerId) (id : ℕ) (arr : List AdjoutPrefix) : List AdjoutPrefix :=
  match adjoutPrefixGet q id arr with
  | none => arr
  | some i => adjoutPrefixUnlink q i arr

end AdjoutWalks

/-- What can happen to the prefix table and the contexts. -/
inductive WalkEvent where
  | ptGet (pt : Nlri.PtEntry)
  | ref (pt : Nlri.PtEntry)
  | unref (pt : Nlri.PtEntry)
  | update (pt : Nlri.PtEntry) (peer : PeerId) (attrs : AdjoutAttr) (pathIdTx : ℕ)
  | withdraw (pt : Nlri.PtEntry) (peer : PeerId) (pathIdTx : ℕ)
  | collect (pt : Nlri.PtEntry)
  | dumpNew (upcall : Upcall) (addr : Ptr) (peer : PeerId) (aid : Option Aid) (count arg : ℕ)
  | dumpR (upcall : Upcall) (addr : Ptr)
  | terminate (arg : ℕ)

/-- One event, with what is to be seen of it. -/
def walkEvent (s : AdjoutWalks) : WalkEvent → Option (AdjoutWalks × List WalkObs)
  | .ptGet pt => some (s.ptGet pt, [])
  | .ref pt => some (s.modifyNode pt fun n => { n with refcnt := n.refcnt + 1 }, [])
  | .unref pt => s.unref pt
  | .update pt q attrs id =>
    some ({ s with bids := bitmapSet q s.bids }.modifyNode pt fun n =>
      { n with adjout := AdjoutWalks.updateArray q attrs id n.adjout }, [])
  | .withdraw pt q id =>
    some (s.modifyNode pt fun n => { n with adjout := AdjoutWalks.withdrawArray q id n.adjout },
      [.lost pt q id])
  | .collect pt =>
    some (s.modifyNode pt fun n => { n with adjout := adjoutPrefixCollect n.adjout }, [])
  | .dumpNew upcall addr peer aid count arg => s.adjoutPrefixDumpNew upcall addr peer aid count arg
  | .dumpR upcall addr => s.adjoutPrefixDumpR upcall addr
  | .terminate arg => AdjoutWalks.freeAll (s.dumps.filter fun c => c.arg = arg) s

/-- One event of a run with its log. -/
def walkStep (x : AdjoutWalks × List WalkObs) (e : WalkEvent) :
    Option (AdjoutWalks × List WalkObs) :=
  (walkEvent x.1 e).map fun (s, log) => (s, x.2 ++ log)

end Bgpd.Rde.AdjoutWalk
