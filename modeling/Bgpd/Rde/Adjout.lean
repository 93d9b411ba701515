import Bgpd.Rde.Types

/-!
# The Adj-RIB-Out

Model of `rde_adjout.c`. The Adj-RIB-Outs of all peers share one array per destination,
sorted by path id, whose elements carry the set of peers they are for. A pointer to an
element is its index. Bit numbers of peers (`adjout_bid`) are replaced by the peer ids.

What waits to be sent to a peer is kept per address family in two queues: withdraws, and
updates grouped by their attributes. The hash tables `pend_prefixes` and `pend_attrs` are
indexes of these queues, so a lookup is a search.

## Layout

- `adjoutPrefixGet`, `adjoutPrefixFirst`, `adjoutPrefixes`: searching the array
- `adjoutPrefixLink`, `adjoutPrefixUnlink`, `adjoutPrefixCollect`: changing it
- `pendPrefixAdd`, `pendEorAdd`: the pending queues
- `adjoutPrefixUpdate`, `adjoutPrefixWithdraw`: both together
-/

namespace Bgpd.Rde

/-! ## The array of a destination -/

/-- `struct adjout_attr`. It is interned, so comparing addresses is comparing contents. -/
structure AdjoutAttr where
  aspath : RdeAspath
  communities : List Community := []
  nexthop : Option BgpdAddr := none
  deriving DecidableEq, Repr

/-- `struct adjout_prefix`; an element without attributes is a tombstone. -/
structure AdjoutPrefix where
  pathIdTx : ℕ
  attrs : Option AdjoutAttr := none
  peermap : List PeerId := []
  deriving DecidableEq, Repr

/-- `adjout_prefix_get`: the element with the given path id that is for the peer. -/
def adjoutPrefixGet (peer : PeerId) (pathIdTx : ℕ) : List AdjoutPrefix → Option ℕ
  | [] => none
  | p :: rest =>
    if p.pathIdTx < pathIdTx then (adjoutPrefixGet peer pathIdTx rest).map (· + 1)
    else if pathIdTx < p.pathIdTx then none
    else if peer ∈ p.peermap then some 0
    else (adjoutPrefixGet peer pathIdTx rest).map (· + 1)

/-- `adjout_prefix_with_attrs`: the element with the given path id and attributes. -/
def adjoutPrefixWithAttrs (pathIdTx : ℕ) (attrs : AdjoutAttr) : List AdjoutPrefix → Option ℕ
  | [] => none
  | p :: rest =>
    if p.pathIdTx < pathIdTx then (adjoutPrefixWithAttrs pathIdTx attrs rest).map (· + 1)
    else if pathIdTx < p.pathIdTx then none
    else if p.attrs = some attrs then some 0
    else (adjoutPrefixWithAttrs pathIdTx attrs rest).map (· + 1)

/-- `adjout_prefix_first`: the first element for the peer. -/
def adjoutPrefixFirst (peer : PeerId) (arr : List AdjoutPrefix) : Option ℕ :=
  arr.findIdx? (fun p => peer ∈ p.peermap)

/-- The elements that a loop over `adjout_prefix_first` and `adjout_prefix_next` visits,
    from index `i` on. `last` is the path id of the element visited last; the elements that
    share it are skipped. -/
def adjoutPrefixesFrom (peer : PeerId) :
    ℕ → Option ℕ → List AdjoutPrefix → List (ℕ × AdjoutPrefix)
  | _, _, [] => []
  | i, last, p :: rest =>
    if last = some p.pathIdTx then adjoutPrefixesFrom peer (i + 1) last rest
    else if peer ∈ p.peermap then
      (i, p) :: adjoutPrefixesFrom peer (i + 1) (some p.pathIdTx) rest
    else adjoutPrefixesFrom peer (i + 1) none rest

/-- The loop over `adjout_prefix_first` and `adjout_prefix_next`. -/
def adjoutPrefixes (peer : PeerId) (arr : List AdjoutPrefix) : List (ℕ × AdjoutPrefix) :=
  adjoutPrefixesFrom peer 0 none arr

/-- `adjout_prefix_alloc`: a new element behind those with the same or a smaller path id,
    with the attributes and the peer that `adjout_prefix_link` then puts in. -/
def adjoutPrefixAlloc (new : AdjoutPrefix) : List AdjoutPrefix → List AdjoutPrefix
  | [] => [new]
  | p :: rest =>
    if new.pathIdTx < p.pathIdTx then new :: p :: rest
    else p :: adjoutPrefixAlloc new rest

/-- `bitmap_set` -/
def bitmapSet (peer : PeerId) (m : List PeerId) : List PeerId :=
  if peer ∈ m then m else peer :: m

/-- `adjout_prefix_link`: share the element with these attributes or make a new one. -/
def adjoutPrefixLink (peer : PeerId) (attrs : AdjoutAttr) (pathIdTx : ℕ)
    (arr : List AdjoutPrefix) : List AdjoutPrefix :=
  match adjoutPrefixWithAttrs pathIdTx attrs arr with
  | some i => arr.modify i (fun p => { p with peermap := bitmapSet peer p.peermap })
  | none => adjoutPrefixAlloc ⟨pathIdTx, some attrs, [peer]⟩ arr

/-- `adjout_prefix_unlink` of one element: an element for no peer becomes a tombstone. -/
def AdjoutPrefix.unlink (peer : PeerId) (p : AdjoutPrefix) : AdjoutPrefix :=
  let m := p.peermap.filter (· ≠ peer)
  { p with peermap := m, attrs := if m = [] then none else p.attrs }

/-- `adjout_prefix_unlink` -/
def adjoutPrefixUnlink (peer : PeerId) (i : ℕ) (arr : List AdjoutPrefix) : List AdjoutPrefix :=
  arr.modify i (AdjoutPrefix.unlink peer)

/-- `adjout_prefix_collect`: remove the tombstones. -/
def adjoutPrefixCollect (arr : List AdjoutPrefix) : List AdjoutPrefix :=
  arr.filter (fun p => p.attrs.isSome)

/-- The entries a peer has for the destination: path ids and attributes. -/
def adjoutEntries (peer : PeerId) (arr : List AdjoutPrefix) : List (ℕ × AdjoutAttr) :=
  arr.filterMap fun p =>
    if peer ∈ p.peermap then p.attrs.map fun a => (p.pathIdTx, a) else none

/-! ## Pending messages -/

/-- `struct pend_attr`: prefixes to be announced with the same attributes. Without
    attributes it is an End-of-RIB marker. -/
structure PendAttr where
  attrs : Option AdjoutAttr
  prefixes : List (PtEntry × ℕ) := []
  deriving DecidableEq, Repr

/-- `peer.withdraws[aid]` and `peer.updates[aid]` for one address family. -/
structure PendQueue where
  withdraws : List (PtEntry × ℕ) := []
  updates : List PendAttr := []
  deriving DecidableEq, Repr

/-- `pend_attr_lookup` and `pend_attr_alloc`: make sure there is a group for `attrs`. -/
def pendAttrGet (attrs : Option AdjoutAttr) (us : List PendAttr) : List PendAttr :=
  if us.any (fun pa => pa.attrs = attrs) then us else us ++ [{ attrs := attrs }]

/-- `pend_eor_add` -/
def pendEorAdd (q : PendQueue) : PendQueue := { q with updates := pendAttrGet none q.updates }

/-- `pend_attr_done` for the group with these attributes: free it when it is empty. -/
def pendAttrDone (attrs : Option AdjoutAttr) (us : List PendAttr) : List PendAttr :=
  us.filter (fun pa => ¬ (pa.attrs = attrs ∧ pa.prefixes = []))

/-- The attributes of the group a pending update is in. -/
def pendUpdateAttrs (x : PtEntry × ℕ) (us : List PendAttr) : Option AdjoutAttr :=
  (us.find? (fun pa => x ∈ pa.prefixes)).bind (·.attrs)

/-- `pend_prefix_remove` from whichever queue the prefix is in. -/
def pendPrefixRemove (x : PtEntry × ℕ) (q : PendQueue) : PendQueue where
  withdraws := q.withdraws.filter (· ≠ x)
  updates := q.updates.map fun pa => { pa with prefixes := pa.prefixes.filter (· ≠ x) }

/-- `pend_prefix_add`: queue an announcement, or a withdraw if there are no attributes. What
    was pending for the same prefix is replaced. -/
def pendPrefixAdd (attrs : Option AdjoutAttr) (pt : PtEntry) (pathIdTx : ℕ) (q : PendQueue) :
    PendQueue :=
  let x := (pt, pathIdTx)
  let oldpa := pendUpdateAttrs x q.updates
  let q := if attrs.isSome then { q with updates := pendAttrGet attrs q.updates } else q
  let q := pendPrefixRemove x q
  let q := if attrs.isSome then
      { q with updates := q.updates.map fun pa =>
          if pa.attrs = attrs then { pa with prefixes := pa.prefixes ++ [x] } else pa }
    else { q with withdraws := q.withdraws ++ [x] }
  -- pend_attr_done(oldpa)
  if oldpa.isSome then { q with updates := pendAttrDone oldpa q.updates } else q

/-! ## Updates and withdraws -/

/-- `enum peer_state` -/
inductive PeerState where
  | none | down | up | err
  deriving DecidableEq, Repr

/-- The calls of `fatal` and `fatalx` that the modelled functions contain. -/
inductive Fatal where
  /-- "king bula is unhappy" in `adjout_prefix_update` or `adjout_prefix_withdraw` -/
  | kingBula
  /-- "try to send out a botched path" or "a looped path" in `up_test_update` -/
  | badPath
  /-- "too many addpath paths to select from" in `up_generate_addpath` -/
  | tooManyPaths
  /-- "unknown add-path eval mode" in `up_generate_addpath` -/
  | evalMode
  /-- "path_id mismatch" in `prefix_update` -/
  | pathIdMismatch
  deriving DecidableEq, Repr

/-- What the update functions change for one peer and one destination: the array of the
    destination, and the pending queues of its address family, the session state and the
    prefix count of the peer. -/
structure Out where
  adjout : List AdjoutPrefix
  pend : PendQueue := {}
  state : PeerState := .up
  prefixOutCnt : ℕ := 0
  deriving DecidableEq, Repr

/-- `pend_prefix_add` if `peer_is_up`. -/
def Out.pendAdd (out : Out) (attrs : Option AdjoutAttr) (pt : PtEntry) (pathIdTx : ℕ) : Out :=
  if out.state = .up then { out with pend := pendPrefixAdd attrs pt pathIdTx out.pend } else out

/-- The new entry is linked and queued, the second half of `adjout_prefix_update`. -/
def Out.link (out : Out) (peer : PeerId) (attrs : AdjoutAttr) (pt : PtEntry) (pathIdTx : ℕ) :
    Out :=
  { out with
    adjout := adjoutPrefixLink peer attrs pathIdTx out.adjout
    prefixOutCnt := out.prefixOutCnt + 1 }.pendAdd (some attrs) pt pathIdTx

/-- `adjout_prefix_unlink` and the prefix count. -/
def Out.unlink (out : Out) (peer : PeerId) (i : ℕ) : Out :=
  { out with
    adjout := adjoutPrefixUnlink peer i out.adjout
    prefixOutCnt := out.prefixOutCnt - 1 }

/-- `adjout_prefix_update`: `p` is the entry the peer has, if any. With `forceSend` an
    unchanged entry is sent again. -/
def adjoutPrefixUpdate (p : Option ℕ) (peer : PeerId) (attrs : AdjoutAttr) (pt : PtEntry)
    (pathIdTx : ℕ) (forceSend : Bool) (out : Out) : Except Fatal Out :=
  match p with
  | none => .ok (out.link peer attrs pt pathIdTx)
  | some i =>
    match out.adjout[i]? with
    | none => .error .kingBula
    | some e =>
      if e.pathIdTx ≠ pathIdTx ∨ peer ∉ e.peermap then .error .kingBula
      else if e.attrs = some attrs then
        -- nothing changed
        .ok (if forceSend then out.pendAdd e.attrs pt pathIdTx else out)
      else .ok ((out.unlink peer i).link peer attrs pt pathIdTx)

/-- `adjout_prefix_withdraw`: with `skipSend` the peer is not told. -/
def adjoutPrefixWithdraw (peer : PeerId) (pt : PtEntry) (i : ℕ) (skipSend : Bool) (out : Out) :
    Except Fatal Out :=
  match out.adjout[i]? with
  | none => .error .kingBula
  | some e =>
    if peer ∉ e.peermap then .error .kingBula
    else
      let out := if skipSend then out else out.pendAdd none pt e.pathIdTx
      .ok (out.unlink peer i)

end Bgpd.Rde
