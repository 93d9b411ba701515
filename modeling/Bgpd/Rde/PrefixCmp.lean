import Bgpd.Rde.FlowspecSpec

/-!
# The Order of the Prefix Table

`pt_prefix_cmp` orders the prefix table and the RIBs. It is an order on all entries, but two EVPN
routes that differ only in their route distinguisher or type have the same place in it.

## Main results

- `ptPrefixCmp_eq_specCmp`: the fields of each family in one list
- `ptPrefixCmp_eq_iff`: entries that compare equal
- `ptPrefixCmp_key`: the laws of the order, and when it tells routes apart
-/

namespace Bgpd.Rde.Nlri

open Std Bgpd.Lib

/-! ## The comparator -/

/-- `ntohl` and `be64toh` of bytes in network byte order. -/
def beNat (l : List UInt8) : ℕ := l.foldl (fun n b => n * 256 + b.toNat) 0

/-- The same bytes on a little-endian machine without conversion: `ethtag`. -/
def hostNat (l : List UInt8) : ℕ := beNat l.reverse

/-- The union of the addresses in `struct pt_entry_evpn`. -/
def EvpnIp.mem (ip : EvpnIp) : Bytes 16 := padTo 16 ip.bytes

/-- The address part of the EVPN case: the family of the first entry decides. -/
def cmpEvpnIp (a b : EvpnIp) : Ordering :=
  match a with
  | .unspec => .eq
  | .v4 _ => memcmp (a.mem.1.take 4) (b.mem.1.take 4)
  | .v6 _ => memcmp a.mem.1 b.mem.1

/-- `pt_prefix_cmp` -/
def ptPrefixCmp (a b : PtEntry) : Ordering :=
  (compare a.aid.val b.aid.val).then <|
    match a, b with
    | .inet aplen a4, .inet bplen b4 => (compare (beNat a4.1) (beNat b4.1)).then
      (compare aplen bplen)
    | .inet6 aplen a6, .inet6 bplen b6 => (memcmp a6.1 b6.1).then (compare aplen bplen)
    | .vpn4 aplen ard a4 _, .vpn4 bplen brd b4 _ =>
      (compare (beNat ard.1) (beNat brd.1)).then <|
        (compare (beNat a4.1) (beNat b4.1)).then (compare aplen bplen)
    | .vpn6 aplen ard a6 _, .vpn6 bplen brd b6 _ =>
      (compare (beNat ard.1) (beNat brd.1)).then <| (memcmp a6.1 b6.1).then (compare aplen bplen)
    -- XXXX need different comparator for different types
    | .evpn aplen ea, .evpn bplen eb =>
      (compare (hostNat ea.ethtag.1) (hostNat eb.ethtag.1)).then <|
        (memcmp ea.mac.1 eb.mac.1).then <| (compare aplen bplen).then (cmpEvpnIp ea.ip eb.ip)
    | .flow isV6 af, .flow _ bf => flowspecCmp af bf isV6
    -- entries of one family have one type
    | _, _ => .lt

/-! ## Entries -/

/-- The entries of the table: `pt_fill` for a prefix of the plain and VPN families and for an EVPN
    route that was decoded, and `pt_add_flow`, whose callers validate the NLRI. -/
inductive Built : PtEntry → Prop
  | plain4 (v4 : Bytes 4) (plen : ℕ) : Built (ptFill (.inet v4) plen)
  | plain6 (v6 : Bytes 16) (plen : ℕ) : Built (ptFill (.inet6 v6) plen)
  | vpn4 (rd : Bytes 8) (v4 : Bytes 4) (labelstack : List UInt8) (plen : ℕ) :
    Built (ptFill (.vpn4 rd v4 labelstack) plen)
  | vpn6 (rd : Bytes 8) (v6 : Bytes 16) (labelstack : List UInt8) (plen : ℕ) :
    Built (ptFill (.vpn6 rd v6 labelstack) plen)
  | evpn {buf rest : List UInt8} {addr : NlriAddr} {plen : ℕ}
    (h : nlriGetEvpn buf = some (addr, plen, rest)) : Built (ptFill addr plen)
  | flow {isV6 : Bool} {flow : List UInt8} (h : flowspecValid flow isV6 = true) :
    Built (.flow isV6 flow)

/-- What is known of an entry. -/
def PtEntry.Ok : PtEntry → Prop
  | evpn plen e => plen = e.ip.len
  | flow isV6 f => flowspecValid f isV6 = true
  | _ => True

theorem Built.ok {a : PtEntry} (h : Built a) : a.Ok := by
  cases h with
  | plain4 => trivial
  | plain6 => trivial
  | vpn4 => trivial
  | vpn6 => trivial
  | evpn h =>
    obtain ⟨e, rfl, hok⟩ := evpnOk_of_nlriGetEvpn h
    rw [ptFill_evpn hok]
    exact hok.len
  | flow h => exact h

/-! ## Keys -/

theorem foldl_beNat_inj {a b : List UInt8} (hlen : a.length = b.length) {x y : ℕ}
    (h : a.foldl (fun n b => n * 256 + b.toNat) x = b.foldl (fun n b => n * 256 + b.toNat) y) :
    x = y ∧ a = b := by
  induction a generalizing b x y with
  | nil =>
    cases b with
    | nil => exact ⟨h, rfl⟩
    | cons _ _ => exact absurd hlen (by simp)
  | cons p a ih =>
    cases b with
    | nil => exact absurd hlen (by simp)
    | cons q b =>
      rw [List.foldl_cons, List.foldl_cons] at h
      obtain ⟨hhead, htail⟩ := ih (by simpa using hlen) h
      have hp := p.toNat_lt
      have hq := q.toNat_lt
      have hbyte : p = q := UInt8.toNat_inj.1 (by omega)
      exact ⟨by omega, by rw [hbyte, htail]⟩

theorem beNat_inj {n : ℕ} {a b : Bytes n} : beNat a.1 = beNat b.1 ↔ a = b := by
  constructor
  · intro h
    exact Subtype.ext (foldl_beNat_inj (a.2.trans b.2.symm) h).2
  · rintro rfl
    rfl

theorem hostNat_inj {n : ℕ} {a b : Bytes n} : hostNat a.1 = hostNat b.1 ↔ a = b := by
  constructor
  · intro h
    have hlen : a.1.reverse.length = b.1.reverse.length := by simp [a.2, b.2]
    exact Subtype.ext (List.reverse_injective (foldl_beNat_inj hlen h).2)
  · rintro rfl
    rfl

/-- Bytes as numbers. -/
def byteNats (l : List UInt8) : List ℕ := l.map UInt8.toNat

theorem compare_toNat (x y : UInt8) : compare x.toNat y.toNat = compare x y := by
  cases h : compare x y with
  | lt => exact Nat.compare_eq_lt.2 (compare_byte_lt.1 h)
  | eq => rw [Std.compare_eq_iff_eq.1 h, Nat.compare_eq_eq]
  | gt => exact Nat.compare_eq_gt.2 (compare_byte_lt.1 (OrientedCmp.lt_of_gt h))

theorem compare_byteNats (a b : List UInt8) : compare (byteNats a) (byteNats b) = memcmp a b := by
  unfold byteNats memcmp
  induction a generalizing b with
  | nil => cases b <;> rfl
  | cons x a ih =>
    cases b with
    | nil => rfl
    | cons y b =>
      rw [List.map_cons, List.map_cons, List.compare_cons_cons, List.compare_cons_cons, ih,
        compare_toNat]

theorem compare_append {a b c d : List ℕ} (hlen : a.length = b.length) :
    compare (a ++ c) (b ++ d) = (compare a b).then (compare c d) := by
  induction a generalizing b with
  | nil =>
    cases b with
    | nil => rfl
    | cons _ _ => exact absurd hlen (by simp)
  | cons x a ih =>
    cases b with
    | nil => exact absurd hlen (by simp)
    | cons y b =>
      rw [List.cons_append, List.cons_append, List.compare_cons_cons, List.compare_cons_cons,
        ih (by simpa using hlen), Ordering.then_assoc]

theorem compare_bytes_append {n : ℕ} (a b : Bytes n) (c d : List ℕ) :
    compare (byteNats a.1 ++ c) (byteNats b.1 ++ d) = (memcmp a.1 b.1).then (compare c d) := by
  rw [compare_append (by simp [byteNats, a.2, b.2]), compare_byteNats]

/-- The fields that are compared, in this order. -/
def PtEntry.numKey : PtEntry → List ℕ
  | inet plen a => [beNat a.1, plen]
  | inet6 plen a => byteNats a.1 ++ [plen]
  | vpn4 plen rd a _ => [beNat rd.1, beNat a.1, plen]
  | vpn6 plen rd a _ => beNat rd.1 :: (byteNats a.1 ++ [plen])
  | evpn plen e => hostNat e.ethtag.1 :: (byteNats e.mac.1 ++ plen :: byteNats e.ip.mem.1)
  | flow .. => []

def PtEntry.comps : PtEntry → List (List UInt8)
  | flow isV6 f => flowKey isV6 f
  | _ => []

/-- The order behind `pt_prefix_cmp`. -/
def specCmp : PtEntry → PtEntry → Ordering :=
  thenOn (·.aid.val) fun aid a b =>
    if aid = 5 then lexEnd (compCmp false) a.comps b.comps
    else if aid = 6 then lexEnd (compCmp true) a.comps b.comps
    else compare a.numKey b.numKey

theorem specCmp_trans : TransCmp specCmp := by
  apply thenOn_trans
  intro aid
  by_cases h₅ : aid = 5
  · simp only [if_pos h₅]
    have : TransCmp (compCmp false) := compCmp_trans
    exact transCmp_comap PtEntry.comps lexEnd_trans
  · by_cases h₆ : aid = 6
    · simp only [if_neg h₅, if_pos h₆]
      have : TransCmp (compCmp true) := compCmp_trans
      exact transCmp_comap PtEntry.comps lexEnd_trans
    · simp only [if_neg h₅, if_neg h₆]
      exact transCmp_comap PtEntry.numKey inferInstance

/-! ## The code -/

variable {a b c : PtEntry}

/-- Addresses of one length. -/
theorem cmpEvpnIp_eq {x y : EvpnIp} (hlen : x.len = y.len) :
    cmpEvpnIp x y = memcmp x.mem.1 y.mem.1 := by
  cases x with
  | unspec =>
    cases y with
    | unspec => rfl
    | v4 _ => exact absurd hlen (by simp [EvpnIp.len])
    | v6 _ => exact absurd hlen (by simp [EvpnIp.len])
  | v4 p =>
    cases y with
    | unspec => exact absurd hlen (by simp [EvpnIp.len])
    | v6 _ => exact absurd hlen (by simp [EvpnIp.len])
    | v4 q =>
      -- the rest of the union is zero
      have hmem : ∀ r : Bytes 4, (EvpnIp.v4 r).mem.1 = r.1 ++ List.replicate 12 0 := by
        intro r
        rw [EvpnIp.mem, EvpnIp.bytes, padTo_val (by simp [r.2]), r.2]
      rw [cmpEvpnIp, ← compare_byteNats, ← compare_byteNats, hmem, hmem, List.take_left' p.2,
        List.take_left' q.2]
      simp only [byteNats, List.map_append]
      rw [compare_append (by simp [p.2, q.2]), compare_self, Ordering.then_eq]
  | v6 p =>
    cases y with
    | unspec => exact absurd hlen (by simp [EvpnIp.len])
    | v4 _ => exact absurd hlen (by simp [EvpnIp.len])
    | v6 q => rfl

theorem compare_singleton (x y : ℕ) : compare [x] [y] = compare x y := by
  rw [List.compare_cons_cons]
  exact Ordering.then_eq

/-- Two entries of one family. -/
inductive SameFamily : PtEntry → PtEntry → Prop
  | inet (p p' : ℕ) (a a' : Bytes 4) : SameFamily (.inet p a) (.inet p' a')
  | inet6 (p p' : ℕ) (a a' : Bytes 16) : SameFamily (.inet6 p a) (.inet6 p' a')
  | vpn4 (p p' : ℕ) (rd rd' : Bytes 8) (a a' : Bytes 4) (l l' : List UInt8) :
    SameFamily (.vpn4 p rd a l) (.vpn4 p' rd' a' l')
  | vpn6 (p p' : ℕ) (rd rd' : Bytes 8) (a a' : Bytes 16) (l l' : List UInt8) :
    SameFamily (.vpn6 p rd a l) (.vpn6 p' rd' a' l')
  | evpn (p p' : ℕ) (e e' : EvpnAddr) : SameFamily (.evpn p e) (.evpn p' e')
  | flow (isV6 : Bool) (f f' : List UInt8) : SameFamily (.flow isV6 f) (.flow isV6 f')

theorem sameFamily_of_aid (h : a.aid.val = b.aid.val) : SameFamily a b := by
  rcases a with ⟨⟩ | ⟨⟩ | ⟨⟩ | ⟨⟩ | ⟨⟩ | ⟨_ | _, _⟩ <;>
    rcases b with ⟨⟩ | ⟨⟩ | ⟨⟩ | ⟨⟩ | ⟨⟩ | ⟨_ | _, _⟩ <;>
    first
    | constructor
    | exact absurd h (by simp [PtEntry.aid, Aid.val])

/-- `pt_prefix_cmp` is the order of family, address and length of the specification. -/
theorem ptPrefixCmp_eq_specCmp (ha : a.Ok) (hb : b.Ok) : ptPrefixCmp a b = specCmp a b := by
  unfold ptPrefixCmp specCmp thenOn
  -- entries of different families are told apart by the first comparison
  cases hcmp : compare a.aid.val b.aid.val with
  | lt => rfl
  | gt => rfl
  | eq =>
    cases sameFamily_of_aid (Nat.compare_eq_eq.1 hcmp) with
    | inet p p' a4 b4 =>
      show _ = compare [beNat a4.1, p] [beNat b4.1, p']
      rw [List.compare_cons_cons, compare_singleton]
      rfl
    | inet6 p p' a6 b6 =>
      show _ = compare (byteNats a6.1 ++ [p]) (byteNats b6.1 ++ [p'])
      rw [compare_bytes_append, compare_singleton]
      rfl
    | vpn4 p p' rd rd' a4 b4 =>
      show _ = compare [beNat rd.1, beNat a4.1, p] [beNat rd'.1, beNat b4.1, p']
      rw [List.compare_cons_cons, List.compare_cons_cons, compare_singleton]
      rfl
    | vpn6 p p' rd rd' a6 b6 =>
      show _ = compare (beNat rd.1 :: (byteNats a6.1 ++ [p]))
        (beNat rd'.1 :: (byteNats b6.1 ++ [p']))
      rw [List.compare_cons_cons, compare_bytes_append, compare_singleton]
      rfl
    | evpn p p' e e' =>
      show _ = compare (hostNat e.ethtag.1 :: (byteNats e.mac.1 ++ p :: byteNats e.ip.mem.1))
        (hostNat e'.ethtag.1 :: (byteNats e'.mac.1 ++ p' :: byteNats e'.ip.mem.1))
      rw [List.compare_cons_cons, compare_bytes_append, List.compare_cons_cons, compare_byteNats]
      -- the length decides about the family of the address
      have hip : (compare p p').then (cmpEvpnIp e.ip e'.ip) =
          (compare p p').then (memcmp e.ip.mem.1 e'.ip.mem.1) := by
        cases hlen : compare p p' with
        | lt => rfl
        | gt => rfl
        | eq =>
          have heq : p = p' := Nat.compare_eq_eq.1 hlen
          have hlen' : e.ip.len = e'.ip.len := by
            rw [← show p = e.ip.len from ha, ← show p' = e'.ip.len from hb, heq]
          rw [cmpEvpnIp_eq hlen']
      rw [← hip]
      rfl
    | flow isV6 f f' =>
      cases isV6 with
      | false => exact flowspecCmp_eq ha hb
      | true => exact flowspecCmp_eq ha hb

/-! ## Entries that compare equal -/

/-- The fields `pt_prefix_cmp` looks at are the same. -/
def SameFields : PtEntry → PtEntry → Prop
  | .inet p a, .inet p' a' => a = a' ∧ p = p'
  | .inet6 p a, .inet6 p' a' => a = a' ∧ p = p'
  | .vpn4 p rd a _, .vpn4 p' rd' a' _ => rd = rd' ∧ a = a' ∧ p = p'
  | .vpn6 p rd a _, .vpn6 p' rd' a' _ => rd = rd' ∧ a = a' ∧ p = p'
  | .evpn p e, .evpn p' e' => e.ethtag = e'.ethtag ∧ e.mac = e'.mac ∧ p = p' ∧ e.ip = e'.ip
  | .flow isV6 f, .flow isV6' f' => isV6 = isV6' ∧ flowCanon isV6 f = flowCanon isV6 f'
  | _, _ => False

theorem aid_of_sameFields (h : SameFields a b) : a.aid = b.aid := by
  cases a <;> cases b <;> simp only [SameFields] at h
  · rfl
  · rfl
  · rfl
  · rfl
  · rfl
  · rename_i isV6 _ _ _
    obtain ⟨rfl, -⟩ := h
    cases isV6 <;> rfl

theorem memcmp_eq_iff {n : ℕ} {x y : Bytes n} : memcmp x.1 y.1 = .eq ↔ x = y := by
  rw [memcmp, Std.compare_eq_iff_eq]
  exact Subtype.ext_iff.symm

theorem cmpEvpnIp_eq_iff {x y : EvpnIp} (hlen : x.len = y.len) : cmpEvpnIp x y = .eq ↔ x = y := by
  rw [cmpEvpnIp_eq hlen, memcmp_eq_iff]
  constructor
  · intro h
    have hbytes : ∀ ip : EvpnIp, ip.mem.1.take (ip.len / 8) = ip.bytes := by
      intro ip
      have hip := ip.length_bytes
      have hlen : ip.len ≤ 128 := by cases ip <;> simp [EvpnIp.len]
      have hle : ip.bytes.length ≤ 16 := by omega
      rw [EvpnIp.mem, padTo_val hle]
      exact List.take_left' (by omega)
    have heq : x.bytes = y.bytes := by rw [← hbytes, ← hbytes, h, hlen]
    cases x <;> cases y <;> simp [EvpnIp.len] at hlen
    · rfl
    · rw [Subtype.ext heq]
    · rw [Subtype.ext heq]
  · rintro rfl
    rfl

/-- Two prefixes are equal for the tree exactly if all their fields are. -/
theorem ptPrefixCmp_eq_iff (ha : a.Ok) (hb : b.Ok) : ptPrefixCmp a b = .eq ↔ SameFields a b := by
  unfold ptPrefixCmp
  rw [Ordering.then_eq_eq, Nat.compare_eq_eq]
  by_cases haid : a.aid.val = b.aid.val
  · rw [and_iff_right haid]
    cases sameFamily_of_aid haid with
    | inet => simp [SameFields, Ordering.then_eq_eq, beNat_inj]
    | inet6 => simp [SameFields, Ordering.then_eq_eq, memcmp_eq_iff]
    | vpn4 => simp [SameFields, Ordering.then_eq_eq, beNat_inj]
    | vpn6 => simp [SameFields, Ordering.then_eq_eq, beNat_inj, memcmp_eq_iff]
    | evpn p p' e e' =>
      simp only [SameFields, Ordering.then_eq_eq, Nat.compare_eq_eq, hostNat_inj, memcmp_eq_iff]
      refine and_congr_right fun _ => and_congr_right fun _ => and_congr_right fun hp => ?_
      apply cmpEvpnIp_eq_iff
      rw [← show p = e.ip.len from ha, ← show p' = e'.ip.len from hb, hp]
    | flow isV6 f f' =>
      simp only [SameFields, true_and]
      rw [flowspecCmp_eq ha hb, lexEnd_flowKey_eq_iff]
  · constructor
    · rintro ⟨h, -⟩
      exact absurd h haid
    · intro h
      exact absurd (congrArg Aid.val (aid_of_sameFields h)) haid

/-- Different routes that have the same place: EVPN routes with another type or route
    distinguisher, and NLRI of flow specifications that differ only in bits behind a prefix. -/
def Merged : PtEntry → PtEntry → Prop
  | .evpn p e, .evpn p' e' =>
    (e.ethtag = e'.ethtag ∧ e.mac = e'.mac ∧ p = p' ∧ e.ip = e'.ip) ∧
      (e.type ≠ e'.type ∨ e.rd ≠ e'.rd)
  | .flow isV6 f, .flow isV6' f' =>
    (isV6 = isV6' ∧ flowCanon isV6 f = flowCanon isV6 f') ∧ f ≠ f'
  | _, _ => False

theorem key_eq_iff_of_sameFields (h : SameFields a b) : a.key = b.key ↔ ¬Merged a b := by
  cases a <;> cases b <;> simp only [SameFields] at h
  · simp [PtEntry.key, Merged, h]
  · simp [PtEntry.key, Merged, h]
  · simp [PtEntry.key, Merged, h]
  · simp [PtEntry.key, Merged, h]
  · rename_i e _ e'
    cases htype : e.type <;> cases htype' : e'.type <;>
      simp [PtEntry.key, Merged, h, htype, htype']
  · obtain ⟨rfl, hcanon⟩ := h
    simp [PtEntry.key, Merged, hcanon]

theorem sameFields_of_merged (h : Merged a b) : SameFields a b := by
  cases a <;> cases b <;> simp only [Merged] at h
  · exact h.1
  · exact h.1

/-- `pt_prefix_cmp` is an order on the entries of the table, and it tells two different routes
    apart unless they are merged. -/
theorem ptPrefixCmp_key (ha : Built a) (hb : Built b) (hc : Built c) :
    ptPrefixCmp a b = (ptPrefixCmp b a).swap ∧
    (ptPrefixCmp a b = .lt → ptPrefixCmp b c = .lt → ptPrefixCmp a c = .lt) ∧
    ((ptPrefixCmp a b).isLE → (ptPrefixCmp b c).isLE → (ptPrefixCmp a c).isLE) ∧
    ((ptPrefixCmp a b = .eq → a.key = b.key) ↔ ¬Merged a b) := by
  have := specCmp_trans
  refine ⟨?_, ?_, ?_, ?_⟩
  · rw [ptPrefixCmp_eq_specCmp ha.ok hb.ok, ptPrefixCmp_eq_specCmp hb.ok ha.ok]
    exact OrientedCmp.eq_swap
  · rw [ptPrefixCmp_eq_specCmp ha.ok hb.ok, ptPrefixCmp_eq_specCmp hb.ok hc.ok,
      ptPrefixCmp_eq_specCmp ha.ok hc.ok]
    exact TransCmp.lt_trans
  · rw [ptPrefixCmp_eq_specCmp ha.ok hb.ok, ptPrefixCmp_eq_specCmp hb.ok hc.ok,
      ptPrefixCmp_eq_specCmp ha.ok hc.ok]
    exact TransCmp.isLE_trans
  · rw [ptPrefixCmp_eq_iff ha.ok hb.ok]
    constructor
    · intro h hmerged
      have hfields := sameFields_of_merged hmerged
      exact (key_eq_iff_of_sameFields hfields).1 (h hfields) hmerged
    · intro h hfields
      exact (key_eq_iff_of_sameFields hfields).2 h

/-- A MAC advertisement of one route distinguisher. -/
def macRoute (rd : UInt8) : List UInt8 :=
  [2, 33, 0, 0, 253, 232, 0, 0, 0, rd, 0, 0, 0, 0, 0, 0, 0, 0, 0, 0, 0, 0, 0, 0,
    48, 2, 0, 0, 0, 0, 1, 0, 0, 0, 1]

/-- What it says. -/
def macAddr (rd : UInt8) : EvpnAddr where
  type := .type2
  rd := ⟨[0, 0, 253, 232, 0, 0, 0, rd], rfl⟩
  ethtag := padTo 4 []
  mac := ⟨[2, 0, 0, 0, 0, 1], rfl⟩
  labelstack := [0, 0, 1]

theorem nlriGetEvpn_macRoute :
    nlriGetEvpn (macRoute 1) = some (.evpn (macAddr 1), 0, []) ∧
      nlriGetEvpn (macRoute 2) = some (.evpn (macAddr 2), 0, []) := by
  decide

/-- One MAC address in two EVPN instances: two routes, one place in the table. -/
theorem ptPrefixCmp_rd_ignored :
    ¬∀ a b : PtEntry, Built a → Built b → ptPrefixCmp a b = .eq → a.key = b.key := by
  intro h
  obtain ⟨hget₁, hget₂⟩ := nlriGetEvpn_macRoute
  have hkey := h (.evpn 0 (macAddr 1)) (.evpn 0 (macAddr 2)) (Built.evpn hget₁) (Built.evpn hget₂)
    (by decide)
  exact absurd hkey (by decide)

/-- Two prefixes and a shorter one. -/
theorem ptPrefixCmp_key_sample :
    ptPrefixCmp (ptFill (.inet ⟨[10, 0, 0, 0], rfl⟩) 8)
      (ptFill (.inet ⟨[10, 1, 0, 0], rfl⟩) 16) = .lt ∧
      ¬Merged (ptFill (.inet ⟨[10, 0, 0, 0], rfl⟩) 8) (ptFill (.inet ⟨[10, 1, 0, 0], rfl⟩) 16) := by
  have hlt : ptPrefixCmp (ptFill (.inet ⟨[10, 0, 0, 0], rfl⟩) 8)
      (ptFill (.inet ⟨[10, 1, 0, 0], rfl⟩) 16) = .lt := by decide
  refine ⟨hlt, (ptPrefixCmp_key (Built.plain4 _ _) (Built.plain4 _ _)
    (Built.plain4 ⟨[10, 1, 0, 0], rfl⟩ 16)).2.2.2.1 fun heq => ?_⟩
  exact absurd (hlt.symm.trans heq) (by decide)

end Bgpd.Rde.Nlri
