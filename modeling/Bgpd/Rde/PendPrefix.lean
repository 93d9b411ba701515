import Bgpd.Lib.Run
import Bgpd.Rde.Types

/-!
# Pending Prefixes

The queues of updates and withdraws that wait for a peer, as `rde_adjout.c` keeps them in
memory: a `struct pend_prefix` is on one of the queues `withdraws[aid]` or on the queue of a
`struct pend_attr`, which is on one of the queues `updates[aid]`, and both are in a hash table.
The attributes of a `struct pend_prefix` are a pointer, and the `NULL` pointer stands for a
withdraw. A `struct pend_attr` without attributes is an End-of-RIB marker.

Objects have addresses. Those that `calloc` returns are arguments of the functions, as is how
many prefixes fit into a message. A hash table is the list of its elements; a lookup compares
what is in memory at their addresses. Where the code aborts, or would use what is not in memory,
there is an error.

## Layout

- `PendPrefix`, `PendAttr`, `PeerPend`: the memory and the queues
- `pendAttrAlloc`, `pendAttrFree`, `pendAttrDone`, `pendEorAdd`
- `pendPrefixRemove`, `pendPrefixAdd`, `pendPrefixFree`
- `adjoutPeerFlushPending`, `upIsEor`, `upDumpPrefix`
- `PeerPend.step`: what can happen to the queues of a peer
-/

namespace Bgpd.Rde.Pend

/-! ## Memory -/

/-- The address of an object. -/
abbrev Addr := ℕ

/-- `struct pend_prefix` -/
structure PendPrefix where
  pt : PtEntry
  attrs : Option Addr
  pathIdTx : ℕ

/-- `struct pend_attr`. `A` are the attributes, which are compared by their address. -/
structure PendAttr (A : Type) where
  prefixes : List Addr := []
  attrs : Option A
  aid : Aid

/-- The fields of `struct rde_peer` for pending messages, and the objects in memory. -/
structure PeerPend (A : Type) where
  prefixAt : Addr → Option PendPrefix := fun _ => none
  attrAt : Addr → Option (PendAttr A) := fun _ => none
  updates : Aid → List Addr := fun _ => []
  withdraws : Aid → List Addr := fun _ => []
  pendAttrs : List Addr := []
  pendPrefixes : List Addr := []
  pendingUpdate : ℤ := 0
  pendingWithdraw : ℤ := 0

/-- Where the code calls `abort` or `fatalx`, or would read what is not there. -/
inductive PendAbort where
  /-- "corrupted pending attr hash table" -/
  | corruptedAttrHash
  /-- "freeing not empty pending attribute" -/
  | freeingNotEmpty
  /-- "missing pending prefix in hash table" -/
  | missingPrefix
  /-- "corrupted pending prefix hash table" -/
  | corruptedPrefixHash
  /-- a pointer to nothing, or to an object that was freed -/
  | badPointer
  deriving DecidableEq, Repr

variable {A : Type} [DecidableEq A]

namespace PeerPend

/-- Read an object through a pointer. -/
def readPrefix (s : PeerPend A) (pp : Addr) : Except PendAbort PendPrefix :=
  match s.prefixAt pp with
  | some x => .ok x
  | none => .error .badPointer

def readAttr (s : PeerPend A) (pa : Addr) : Except PendAbort (PendAttr A) :=
  match s.attrAt pa with
  | some x => .ok x
  | none => .error .badPointer

/-- `pend_attr_eq` with a needle, for an element of the hash table. -/
def attrEq (s : PeerPend A) (attrs : Option A) (aid : Aid) (pa : Addr) : Bool :=
  (s.attrAt pa).any fun x => x.attrs = attrs && x.aid = aid

/-- `pend_prefix_eq` with a needle, for an element of the hash table. -/
def prefixEq (s : PeerPend A) (pt : PtEntry) (pathIdTx : ℕ) (pp : Addr) : Bool :=
  (s.prefixAt pp).any fun x => x.pt = pt && x.pathIdTx = pathIdTx

end PeerPend

/-! ## Attributes -/

/-- `pend_attr_lookup` -/
def pendAttrLookup (s : PeerPend A) (attrs : Option A) (aid : Aid) : Option Addr :=
  s.pendAttrs.find? (s.attrEq attrs aid)

/-- `pend_attr_alloc` -/
def pendAttrAlloc (attrs : Option A) (aid : Aid) (new : Addr) (s : PeerPend A) :
    Except PendAbort (PeerPend A) :=
  let s := { s with
    attrAt := Function.update s.attrAt new (some { attrs := attrs, aid := aid })
    updates := Function.update s.updates aid (s.updates aid ++ [new]) }
  if s.pendAttrs.any (s.attrEq attrs aid) then .error .corruptedAttrHash
  else .ok { s with pendAttrs := new :: s.pendAttrs }

/-- `pend_attr_free` -/
def pendAttrFree (pa : Addr) (s : PeerPend A) : Except PendAbort (PeerPend A) := do
  let x ← s.readAttr pa
  if x.prefixes ≠ [] then .error .freeingNotEmpty
  else .ok { s with
    updates := Function.update s.updates x.aid ((s.updates x.aid).erase pa)
    pendAttrs := s.pendAttrs.eraseP (s.attrEq x.attrs x.aid)
    attrAt := Function.update s.attrAt pa none }

/-- `pend_attr_done` -/
def pendAttrDone (pa : Option Addr) (s : PeerPend A) : Except PendAbort (PeerPend A) :=
  match pa with
  | none => .ok s
  | some pa => do
    let x ← s.readAttr pa
    if x.prefixes = [] then pendAttrFree pa s else .ok s

/-- `pend_eor_add` -/
def pendEorAdd (aid : Aid) (new : Addr) (s : PeerPend A) : Except PendAbort (PeerPend A) :=
  match pendAttrLookup s none aid with
  | some _ => .ok s
  | none => pendAttrAlloc none aid new s

/-! ## Prefixes -/

/-- A pointer to a queue of prefixes. -/
inductive Head where
  | withdraws (aid : Aid)
  | prefixes (pa : Addr)
  deriving DecidableEq, Repr

namespace PeerPend

/-- The elements of a queue. -/
def queue (s : PeerPend A) : Head → Except PendAbort (List Addr)
  | .withdraws aid => .ok (s.withdraws aid)
  | .prefixes pa => do
    let x ← s.readAttr pa
    .ok x.prefixes

/-- Change a queue. -/
def setQueue (s : PeerPend A) (f : List Addr → List Addr) : Head → Except PendAbort (PeerPend A)
  | .withdraws aid =>
    .ok { s with withdraws := Function.update s.withdraws aid (f (s.withdraws aid)) }
  | .prefixes pa => do
    let x ← s.readAttr pa
    .ok { s with attrAt := Function.update s.attrAt pa (some { x with prefixes := f x.prefixes }) }

/-- The queue that the attributes of a pending prefix say. -/
def headOf (x : PendPrefix) : Head :=
  match x.attrs with
  | none => .withdraws x.pt.aid
  | some pa => .prefixes pa

/-- Count a prefix, by its attributes. -/
def count (s : PeerPend A) (attrs : Option Addr) (n : ℤ) : PeerPend A :=
  match attrs with
  | none => { s with pendingWithdraw := s.pendingWithdraw + n }
  | some _ => { s with pendingUpdate := s.pendingUpdate + n }

/-- Set the attributes of a pending prefix. -/
def setAttrs (s : PeerPend A) (pp : Addr) (x : PendPrefix) (attrs : Option Addr) : PeerPend A :=
  { s with prefixAt := Function.update s.prefixAt pp (some { x with attrs := attrs }) }

end PeerPend

/-- `pend_prefix_lookup` -/
def pendPrefixLookup (s : PeerPend A) (pt : PtEntry) (pathIdTx : ℕ) : Option Addr :=
  s.pendPrefixes.find? (s.prefixEq pt pathIdTx)

/-- `pend_prefix_remove` -/
def pendPrefixRemove (pp : Addr) (head : Head) (s : PeerPend A) :
    Except PendAbort (PeerPend A) := do
  let x ← s.readPrefix pp
  if pendPrefixLookup s x.pt x.pathIdTx ≠ some pp then .error .missingPrefix
  else
    let s := { s with pendPrefixes := s.pendPrefixes.eraseP (s.prefixEq x.pt x.pathIdTx) }
    let s ← s.setQueue (·.erase pp) head
    .ok ((s.count x.attrs (-1)).setAttrs pp x none)

/-- `pend_prefix_alloc` -/
def pendPrefixAlloc (attrs : Option Addr) (pt : PtEntry) (pathIdTx : ℕ) (new : Addr)
    (s : PeerPend A) : PeerPend A :=
  { s with prefixAt := Function.update s.prefixAt new (some ⟨pt, attrs, pathIdTx⟩) }

/-- The end of `pend_prefix_add`: count the prefix, put it on the queue and into the hash table. -/
def pendPrefixLink (pp : Addr) (x : PendPrefix) (s : PeerPend A) :
    Except PendAbort (PeerPend A) := do
  let s ← (s.count x.attrs 1).setQueue (· ++ [pp]) (PeerPend.headOf x)
  if s.pendPrefixes.any (s.prefixEq x.pt x.pathIdTx) then .error .corruptedPrefixHash
  else .ok { s with pendPrefixes := pp :: s.pendPrefixes }

/-- The beginning of `pend_prefix_add`: the `struct pend_attr` for the attributes. -/
def pendAttrGet (attrs : Option A) (aid : Aid) (new : Addr) (s : PeerPend A) :
    Except PendAbort (Option Addr × PeerPend A) :=
  match attrs with
  | none => .ok (none, s)
  | some _ =>
    match pendAttrLookup s attrs aid with
    | some pa => .ok (some pa, s)
    | none => do
      let s ← pendAttrAlloc attrs aid new s
      .ok (some new, s)

/-- `pend_prefix_add`. `newpa` and `newpp` are the addresses of new objects. -/
def pendPrefixAdd (attrs : Option A) (pt : PtEntry) (pathIdTx : ℕ) (newpa newpp : Addr)
    (s : PeerPend A) : Except PendAbort (PeerPend A) := do
  let (pa, s) ← pendAttrGet attrs pt.aid newpa s
  match pendPrefixLookup s pt pathIdTx with
  | none =>
    let s := pendPrefixAlloc pa pt pathIdTx newpp s
    pendPrefixLink newpp ⟨pt, pa, pathIdTx⟩ s
  | some pp => do
    let x ← s.readPrefix pp
    let oldpa := x.attrs
    let s ← pendPrefixRemove pp (PeerPend.headOf x) s
    let s := s.setAttrs pp x pa
    let s ← pendPrefixLink pp { x with attrs := pa } s
    pendAttrDone oldpa s

/-- `pend_prefix_free` -/
def pendPrefixFree (pp : Addr) (head : Head) (s : PeerPend A) : Except PendAbort (PeerPend A) := do
  let s ← pendPrefixRemove pp head s
  .ok { s with prefixAt := Function.update s.prefixAt pp none }

/-! ## Sending and flushing -/

/-- The loop of `up_dump_prefix`: `n` prefixes of the queue fit into the message. -/
def upDumpPrefix (head : Head) : ℕ → PeerPend A → Except PendAbort (PeerPend A)
  | 0, s => .ok s
  | n + 1, s => do
    match ← s.queue head with
    | [] => .ok s
    | pp :: _ => do
      let s ← pendPrefixFree pp head s
      upDumpPrefix head n s

/-- The loops of `adjout_peer_flush_pending` over the prefixes of a queue. -/
def flushQueue (head : Head) (s : PeerPend A) : Except PendAbort (PeerPend A) := do
  let q ← s.queue head
  upDumpPrefix head q.length s

/-- `adjout_peer_flush_pending` for one address family. -/
def flushAid (s : PeerPend A) (aid : Aid) : Except PendAbort (PeerPend A) := do
  let s ← flushQueue (.withdraws aid) s
  (s.updates aid).foldlM (fun s pa => do
    let s ← flushQueue (.prefixes pa) s
    pendAttrDone (some pa) s) s

/-- `adjout_peer_flush_pending` -/
def adjoutPeerFlushPending (s : PeerPend A) : Except PendAbort (PeerPend A) :=
  Aid.all.foldlM flushAid s

/-- `up_is_eor` -/
def upIsEor (aid : Aid) (s : PeerPend A) : Except PendAbort (Bool × PeerPend A) :=
  match s.updates aid with
  | [] => .ok (false, s)
  | pa :: _ => do
    let x ← s.readAttr pa
    if x.attrs = none then do
      let s ← pendAttrDone (some pa) s
      .ok (true, s)
    else .ok (false, s)

/-- How `up_dump_update` ends: with one or more prefixes in the message, with the first prefix
    dropped since it does not fit, or with a failure in which nothing is sent. -/
inductive Fit where
  | written (more : ℕ)
  | drop
  | fail

/-- `up_dump_update` for the first element of the queue, as far as it changes the queues. -/
def upDumpUpdate (aid : Aid) (fit : Fit) (s : PeerPend A) : Except PendAbort (PeerPend A) :=
  match s.updates aid with
  | [] => .ok s
  | pa :: _ => do
    let x ← s.readAttr pa
    -- the attributes are read without a check
    if x.attrs = none then .error .badPointer
    else
      match fit with
      | .written more => do
        let s ← upDumpPrefix (.prefixes pa) (more + 1) s
        pendAttrDone (some pa) s
      | .drop =>
        match x.prefixes with
        | [] => .error .badPointer
        | pp :: _ => do
          let s ← pendPrefixFree pp (.prefixes pa) s
          pendAttrDone (some pa) s
      | .fail => pendAttrDone (some pa) s

/-- The part of `rde_update_queue_runner` for the updates of one peer. -/
def runnerUpdates (aid : Aid) (fit : Fit) (s : PeerPend A) : Except PendAbort (PeerPend A) := do
  let (eor, s) ← upIsEor aid s
  if eor then .ok s else upDumpUpdate aid fit s

/-- The operations on the queues of a peer. -/
inductive PendOp (A : Type) where
  | add (attrs : Option A) (pt : PtEntry) (pathIdTx : ℕ) (newpa newpp : Addr)
  | eorAdd (aid : Aid) (new : Addr)
  | isEor (aid : Aid)
  | dumpWithdraws (aid : Aid) (n : ℕ)
  | updates (aid : Aid) (fit : Fit)
  | flush

namespace PeerPend

/-- One operation. -/
def step (s : PeerPend A) : PendOp A → Except PendAbort (PeerPend A)
  | .add attrs pt pathIdTx newpa newpp => pendPrefixAdd attrs pt pathIdTx newpa newpp s
  | .eorAdd aid new => pendEorAdd aid new s
  | .isEor aid => do
    let (_, s) ← upIsEor aid s
    .ok s
  | .dumpWithdraws aid n => upDumpPrefix (.withdraws aid) n s
  | .updates aid fit => runnerUpdates aid fit s
  | .flush => adjoutPeerFlushPending s

/-- `calloc` returns addresses that are not in use. -/
def Fresh (s : PeerPend A) : PendOp A → Prop
  | .add _ _ _ newpa newpp => s.attrAt newpa = none ∧ s.prefixAt newpp = none
  | .eorAdd _ new => s.attrAt new = none
  | _ => True

end PeerPend

end Bgpd.Rde.Pend
