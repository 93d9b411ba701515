import Bgpd.Rde.Types

/-!
# Walks over a RIB

Model of the part of `rde_rib.c` that walks over RIBs in steps: a context is created with
`rib_dump_new` or `rib_dump_subtree`, and every call of `rib_dump_r` visits a number of
entries and then pauses at an entry, which is locked until the context goes on. An entry
that is locked or queued on a peer stays in the tree when its last path is removed.

A tree is the list of its entries in the order of `pt_prefix_cmp`. Entries are objects, so
contexts and queues refer to them by address. Of the paths of an entry only their number
matters here. `none` stands for a program that stops: with a message, or because of an access
through a pointer to an object that was freed.

## Layout

- `treeFind`, `treeNfind`, `treeInsert`, ...: the tree
- `ribRemove`, `reLock`, `reUnlock`: life and death of an entry
- `entryOp`: paths come and go, and entries are queued
- `ribDumpR`, `ribDumpNew`, `ribDumpSubtree`, `ribDumpFree`: contexts
- `peerProcessUpdates`, `peerDelete`: the queues of the peers
- `ribFree`, `rdeReloadDone`: the removal of a RIB
-/

namespace Bgpd.Rde.Dump

/-! ## Entries and trees -/

/-- `struct rib_entry` in its tree. -/
structure DumpEntry where
  ptr : Ptr
  pt : PtEntry
  /-- The length of `prefix_h`. -/
  prefixes : ℕ := 0
  /-- `pq_mode` is not `EVAL_NONE`. -/
  queued : Bool := false
  lock : Bool := false
  deriving DecidableEq, Repr

/-- `struct rib_tree` -/
abbrev RibTree := List DumpEntry

/-- What the walks need to know of destinations. -/
structure DumpEnv where
  /-- `pt_prefix_cmp` -/
  ptPrefixCmp : PtEntry → PtEntry → Ordering
  /-- `pt_fill` -/
  ptFill : BgpdAddr → ℕ → PtEntry
  /-- `prefix_compare` of the subtree with the address of the destination is 0. -/
  inSubtree : BgpdAddr × ℕ → PtEntry → Bool

/-- The object at an address. -/
def treeGet (t : RibTree) (p : Ptr) : Option DumpEntry := t.find? (fun e => e.ptr = p)

/-- A change of the object at an address. -/
def treeModify (t : RibTree) (p : Ptr) (f : DumpEntry → DumpEntry) : RibTree :=
  t.map fun e => if e.ptr = p then f e else e

/-- `RB_FIND` -/
def treeFind (env : DumpEnv) (t : RibTree) (pt : PtEntry) : Option DumpEntry :=
  t.find? fun e => env.ptPrefixCmp pt e.pt = .eq

/-- `RB_NFIND`: the first entry that is not before the destination. -/
def treeNfind (env : DumpEnv) (t : RibTree) (pt : PtEntry) : Option DumpEntry :=
  t.find? fun e => env.ptPrefixCmp pt e.pt ≠ .gt

/-- `RB_INSERT` of a destination that is not in the tree. -/
def treeInsert (env : DumpEnv) (t : RibTree) (e : DumpEntry) : RibTree :=
  t.takeWhile (fun x => env.ptPrefixCmp x.pt e.pt = .lt) ++
    e :: t.dropWhile (fun x => env.ptPrefixCmp x.pt e.pt = .lt)

/-- `re_lock` -/
def reLock (t : RibTree) (p : Ptr) : RibTree := treeModify t p fun e => { e with lock := true }

/-- `re_unlock` -/
def reUnlock (t : RibTree) (p : Ptr) : RibTree := treeModify t p fun e => { e with lock := false }

/-- `rib_remove` -/
def ribRemove (t : RibTree) (p : Ptr) : Option RibTree :=
  (treeGet t p).bind fun re =>
    if re.prefixes ≠ 0 then none
    -- entry is locked or queued, don't free it
    else if re.lock || re.queued then some t
    else some (t.filter fun e => e.ptr ≠ p)

/-- `if (rib_empty(re)) rib_remove(re)` -/
def ribRemoveEmpty (t : RibTree) (p : Ptr) : Option RibTree :=
  (treeGet t p).bind fun re => if re.prefixes = 0 then ribRemove t p else some t

/-! ## State -/

/-- `struct rib_context` -/
structure RibContext where
  /-- The address of the object. -/
  addr : Ptr
  id : ℕ
  /-- `ctx_rib_call` is set: the context walks a RIB and not an Adj-RIB-Out. -/
  ribCall : Bool := true
  re : Option Ptr := none
  aid : Option Aid := none
  count : ℕ := 0
  arg : ℕ := 0
  subtree : Option (BgpdAddr × ℕ) := none
  deriving DecidableEq, Repr

/-- The RIBs, the queues `rib_pq_head` of the peers and the list `rib_dumps`. An entry on a
    queue is given by its `rib_id` and its address. -/
structure RibDumps where
  ribs : ℕ → Option RibTree := fun _ => none
  pq : PeerId → List (ℕ × Ptr) := fun _ => []
  dumps : List RibContext := []

namespace RibDumps

variable (env : DumpEnv) (s : RibDumps)

def setTree (id : ℕ) (t : RibTree) : RibDumps :=
  { s with ribs := Function.update s.ribs id (some t) }

/-! ## Paths -/

/-- A path is added or removed, or nothing is. Behind it, the entry may be queued. -/
structure EntryOp where
  /-- The address of the entry if a new one is needed. -/
  add : Option Ptr := none
  del : Bool := false
  enqueue : Option PeerId := none
  deriving DecidableEq, Repr

/-- `rib_pq_enqueue` for the entry at an address. -/
def ribPqEnqueue (id : ℕ) (p : Ptr) (peer : PeerId) : Option RibDumps := do
  let t ← s.ribs id
  let re ← treeGet t p
  if re.queued then some s
  else
    let s := s.setTree id (treeModify t p fun e => { e with queued := true })
    some { s with pq := Function.update s.pq peer (s.pq peer ++ [(id, p)]) }

/-- The change of a list of paths that `prefix_add` and `prefix_destroy` make, with the entry
    that it is about. `prefix_add` creates the entry if there is none. -/
def changePrefixes (id : ℕ) (pt : PtEntry) (op : EntryOp) : Option (RibDumps × Ptr) := do
  let t ← s.ribs id
  match op.add, treeFind env t pt with
  | none, none => none
  | none, some re =>
    if op.del then
      if re.prefixes = 0 then none
      else some (s.setTree id (treeModify t re.ptr fun e => { e with prefixes := e.prefixes - 1 }),
        re.ptr)
    else some (s, re.ptr)
  | some _, some re =>
    some (s.setTree id (treeModify t re.ptr fun e => { e with prefixes := e.prefixes + 1 }), re.ptr)
  | some p, none =>
    -- calloc returns the address of no other object
    if p ∈ t.map (·.ptr) then none
    else some (s.setTree id (treeInsert env t { ptr := p, pt := pt, prefixes := 1 }), p)

/-- A change of the paths of a destination: the list of paths changes, the entry is queued if
    the change has to be passed on, and an entry without paths is removed. -/
def entryOp (id : ℕ) (pt : PtEntry) (op : EntryOp) : Option RibDumps :=
  (s.changePrefixes env id pt op).bind fun (s, p) =>
    (op.enqueue.elim (some s) (s.ribPqEnqueue id p)).bind fun s =>
      if op.del then
        (s.ribs id).bind fun t => (ribRemoveEmpty t p).map (s.setTree id)
      else some s

/-! ## Contexts -/

/-- What the callback of a context does: changes of the destination it is called for, in any
    RIBs. -/
abbrev Upcall := PtEntry → List (ℕ × EntryOp)

/-- One call of the callback. -/
def ribCall (upcall : Upcall) (pt : PtEntry) : Option RibDumps :=
  (upcall pt).foldlM (fun s x => s.entryOp env x.1 pt x.2) s

/-- The loop of `rib_dump_r` over the rest of the tree. The address at which it pauses, or
    `none` if the walk is done. The callback changes only the entry it is called for, so that
    the entries behind it are still those of the tree. -/
def dumpWalk (upcall : Upcall) (ctx : RibContext) :
    List Ptr → ℕ → RibDumps → Option (RibDumps × Option Ptr)
  | [], _, s => some (s, none)
  | p :: next, i, s => do
    let t ← s.ribs ctx.id
    let re ← treeGet t p
    if re.prefixes = 0 then dumpWalk upcall ctx next i s
    else if ctx.aid ≠ none ∧ ctx.aid ≠ some re.pt.aid then dumpWalk upcall ctx next i s
    -- left subtree, walk is done
    else if ctx.subtree.any fun x => !env.inSubtree x re.pt then some (s, none)
    else if ctx.count ≠ 0 ∧ i ≥ ctx.count ∧ re.lock = false then
      -- store and lock last element
      some (s.setTree ctx.id (reLock t p), some p)
    else
      let s ← s.ribCall env upcall re.pt
      dumpWalk upcall ctx next (i + 1) s

/-- `rib_restart`: the tree, and the part of it to visit. -/
def ribRestart (t : RibTree) (ctxRe : Option Ptr) : Option (RibTree × List Ptr) :=
  match ctxRe with
  | none => some (t, [])
  | some p => do
    let _ ← treeGet t p
    let t := reUnlock t p
    -- find first non empty element
    let next := (t.dropWhile fun e => e.ptr ≠ p).dropWhile fun e => e.prefixes = 0
    -- free the previously locked rib element if empty
    let t ← ribRemoveEmpty t p
    some (t, next.map (·.ptr))

/-- A change of the context at an address. -/
def setRe (addr : Ptr) (re : Option Ptr) : RibDumps :=
  { s with dumps := s.dumps.map fun c => if c.addr = addr then { c with re := re } else c }

/-- `LIST_REMOVE` of the context at an address. -/
def dropContext (addr : Ptr) : RibDumps :=
  { s with dumps := s.dumps.filter fun c => c.addr ≠ addr }

/-- The start of `rib_dump_r`: the first element, or the one at which the context paused. -/
def dumpStart (t : RibTree) (ctx : RibContext) : Option (RibTree × List Ptr) :=
  if ctx.re = none ∧ ctx.subtree = none then some (t, t.map (·.ptr)) else ribRestart t ctx.re

/-- `rib_dump_r` -/
def ribDumpR (upcall : Upcall) (addr : Ptr) : Option RibDumps := do
  let ctx ← s.dumps.find? fun c => c.addr = addr
  -- "rib id gone"
  let t ← s.ribs ctx.id
  let (t, todo) ← dumpStart t ctx
  let (s, paused) ← dumpWalk env upcall ctx todo 0 ((s.setTree ctx.id t).setRe addr none)
  match paused with
  | some p => some (s.setRe addr (some p))
  | none => some (s.dropContext addr)

/-- `rib_dump_insert` and the walk in one go if the count is 0. -/
def dumpInsert (upcall : Upcall) (ctx : RibContext) : Option RibDumps :=
  if ctx.addr ∈ s.dumps.map (·.addr) then none
  else
    let s := { s with dumps := ctx :: s.dumps }
    if ctx.count = 0 then s.ribDumpR env upcall ctx.addr else some s

/-- `rib_dump_new` for a RIB that exists. -/
def ribDumpNew (upcall : Upcall) (addr : Ptr) (id : ℕ) (aid : Option Aid) (count arg : ℕ) :
    Option RibDumps := do
  let _ ← s.ribs id
  s.dumpInsert env upcall { addr := addr, id := id, aid := aid, count := count, arg := arg }

/-- `rib_dump_subtree` -/
def ribDumpSubtree (upcall : Upcall) (addr : Ptr) (id : ℕ) (subtree : BgpdAddr) (len : ℕ)
    (count arg : ℕ) : Option RibDumps := do
  let t ← s.ribs id
  -- lookup start of subtree
  let re := treeNfind env t (env.ptFill subtree len)
  let s := match re with
    | none => s
    | some re => s.setTree id (reLock t re.ptr)
  s.dumpInsert env upcall
    { addr := addr, id := id, aid := subtree.aid, count := count, arg := arg,
      re := re.map (·.ptr), subtree := some (subtree, len) }

/-- `adjout_prefix_dump_new`, whose contexts are in the same list. The id is one of a peer. -/
def adjoutPrefixDumpNew (addr : Ptr) (id : ℕ) (arg : ℕ) : Option RibDumps :=
  if addr ∈ s.dumps.map (·.addr) then none
  else some { s with dumps := { addr := addr, id := id, ribCall := false, arg := arg } :: s.dumps }

/-- `rib_dump_free` with `rib_dump_cleanup` -/
def ribDumpFree (ctx : RibContext) : Option RibDumps :=
  match ctx.re with
  | none => some (s.dropContext ctx.addr)
  | some p => do
    let t ← s.ribs ctx.id
    let _ ← treeGet t p
    let t ← ribRemoveEmpty (reUnlock t p) p
    some ((s.setTree ctx.id t).dropContext ctx.addr)

/-- `rib_dump_terminate` -/
def ribDumpTerminate (arg : ℕ) : Option RibDumps :=
  (s.dumps.filter fun c => c.arg = arg).foldlM ribDumpFree s

/-- `rib_dump_abort` -/
def ribDumpAbort (id : ℕ) : Option RibDumps :=
  (s.dumps.filter fun c => c.id = id ∧ c.re ≠ none).foldlM ribDumpFree s

/-! ## Queues of the peers -/

/-- `peer_process_updates`, with `rib_pq_dequeue`. -/
def peerProcessUpdates (peer : PeerId) : Option RibDumps :=
  match s.pq peer with
  | [] => some s
  | (id, p) :: q => do
    let t ← s.ribs id
    let _ ← treeGet t p
    let t ← ribRemoveEmpty (treeModify t p fun e => { e with queued := false }) p
    some { s.setTree id t with pq := Function.update s.pq peer q }

/-- The part of `peer_delete` that hands the queue over to `peerself`. -/
def peerDelete (peer : PeerId) : RibDumps :=
  if peer = peerself then s
  else
    let pq := Function.update s.pq peerself (s.pq peerself ++ s.pq peer)
    { s with pq := Function.update pq peer [] }

/-! ## RIBs -/

/-- `RIB_LOC_START`: the ids up to it are those of the default RIBs. -/
def ribLocStart : ℕ := 1

/-- `rib_new` with the first free id. -/
def ribNew (id : ℕ) : Option RibDumps :=
  if (s.ribs id).isSome then none else some (s.setTree id [])

/-- The tree after all paths were removed. -/
def flushTree (t : RibTree) : RibTree :=
  (t.filter fun e => e.lock || e.queued).map fun e => { e with prefixes := 0 }

/-- `rib_free` -/
def ribFree (id : ℕ) : Option RibDumps := do
  let s ← s.ribDumpAbort id
  let t ← s.ribs id
  -- never remove the default ribs
  if id ≤ ribLocStart then some (s.setTree id (flushTree t))
  else some { s with ribs := Function.update s.ribs id none }

/-- The part of `rde_reload_done` that calls `rib_free` for the RIBs in state
    `RECONF_DELETE`. -/
def rdeReloadDone (delete : List ℕ) : Option RibDumps := delete.foldlM ribFree s

end RibDumps

/-! ## Events -/

/-- What can happen to RIBs, queues and contexts. -/
inductive DumpEvent where
  | ribNew (id : ℕ)
  | entryOp (id : ℕ) (pt : PtEntry) (op : RibDumps.EntryOp)
  | processUpdates (peer : PeerId)
  | peerDelete (peer : PeerId)
  | dumpNew (upcall : RibDumps.Upcall) (addr : Ptr) (id : ℕ) (aid : Option Aid) (count arg : ℕ)
  | dumpSubtree (upcall : RibDumps.Upcall) (addr : Ptr) (id : ℕ) (subtree : BgpdAddr) (len : ℕ)
      (count arg : ℕ)
  | adjoutDumpNew (addr : Ptr) (id : ℕ) (arg : ℕ)
  | dumpR (upcall : RibDumps.Upcall) (addr : Ptr)
  | terminate (arg : ℕ)
  | reload (delete : List ℕ)

/-- One event. -/
def dumpStep (env : DumpEnv) (s : RibDumps) : DumpEvent → Option RibDumps
  | .ribNew id => s.ribNew id
  | .entryOp id pt op => s.entryOp env id pt op
  | .processUpdates peer => s.peerProcessUpdates peer
  | .peerDelete peer => some (s.peerDelete peer)
  | .dumpNew upcall addr id aid count arg => s.ribDumpNew env upcall addr id aid count arg
  | .dumpSubtree upcall addr id subtree len count arg =>
    s.ribDumpSubtree env upcall addr id subtree len count arg
  | .adjoutDumpNew addr id arg => s.adjoutPrefixDumpNew addr id arg
  | .dumpR upcall addr => s.ribDumpR env upcall addr
  | .terminate arg => s.ribDumpTerminate arg
  | .reload delete => s.rdeReloadDone delete

end Bgpd.Rde.Dump
