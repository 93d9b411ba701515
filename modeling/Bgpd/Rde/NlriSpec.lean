import Bgpd.Rde.Nlri

/-!
# Round Trip of NLRI

What `pt_writebuf` writes for an entry of a decoded route is decoded to the same route again,
and a withdraw to the same route key. The bytes need not be those that were received: bits
behind the prefix length are cleared.

## Main results

- `extractPrefixBuf_take`, `extractPrefixBuf_masked`: prefixes
- `labelLoop_again`: label stacks
- `nlriGet_ptWritebuf`: the round trip of all families
-/

namespace Bgpd.Rde.Nlri

variable {buf rest tail l : List UInt8} {n max plen : ℕ}

/-! ## Buffers -/

@[simp] theorem ibufGet_append (a : Bytes n) (tail : List UInt8) :
    ibufGet n (a.1 ++ tail) = some (a, tail) := by
  have hlen : n ≤ (a.1 ++ tail).length := by simp [a.2]
  simp [ibufGet, a.2]

@[simp] theorem ibufGetN8_cons (b : UInt8) : ibufGetN8 (b :: buf) = some (b.toNat, buf) := rfl

theorem le_of_ibufGetN8 {value : ℕ} (h : ibufGetN8 buf = some (value, rest)) : value ≤ 255 := by
  cases buf with
  | nil => exact absurd h (by simp [ibufGetN8])
  | cons b buf =>
    simp only [ibufGetN8_cons, Option.some.injEq, Prod.mk.injEq] at h
    have hb := b.toNat_lt
    omega

theorem ibufAddN8_of_le {value : ℕ} (h : value ≤ 255) :
    ibufAddN8 value = some [UInt8.ofNat value] := by
  rw [ibufAddN8, if_neg (by omega)]

theorem toNat_ofNat_of_le {value : ℕ} (h : value ≤ 255) : (UInt8.ofNat value).toNat = value := by
  rw [UInt8.toNat_ofNat']
  omega

/-- A path id is read as it was written. -/
theorem ibufGetN32_ibufAddN32 (pathid : UInt32) (tail : List UInt8) :
    ibufGetN32 (ibufAddN32 pathid ++ tail) = some (pathid, tail) := by
  have hlt := pathid.toNat_lt
  simp only [ibufAddN32, List.cons_append, List.nil_append, ibufGetN32, Option.some.injEq,
    Prod.mk.injEq, and_true]
  apply UInt32.toNat_inj.1
  simp only [UInt8.toNat_ofNat', UInt32.toNat_ofNat']
  omega

/-! ## Prefixes -/

theorem maskBytes_zero (l : List UInt8) : maskBytes 0 l = List.replicate l.length 0 := by
  induction l with
  | nil => rfl
  | cons b rest ih => simp [maskBytes, ih, addrmask, List.replicate_succ]

/-- Masking twice is masking once. -/
theorem maskBytes_maskBytes (n : ℕ) (l : List UInt8) :
    maskBytes n (maskBytes n l) = maskBytes n l := by
  induction l generalizing n with
  | nil => rfl
  | cons b rest ih =>
    by_cases hn : 8 ≤ n
    · simp [maskBytes, hn, ih]
    · simp [maskBytes, hn, ih, UInt8.and_assoc]

theorem prefixBytes_of_ge (hn : 8 ≤ n) : prefixBytes n = prefixBytes (n - 8) + 1 := by
  unfold prefixBytes
  omega

theorem prefixBytes_of_lt (hn : n < 8) (hz : n ≠ 0) : prefixBytes n = 1 := by
  unfold prefixBytes
  omega

/-- What stands behind the last byte of the prefix is cleared. -/
theorem maskBytes_append {a : List UInt8} (b : List UInt8) (h : prefixBytes n ≤ a.length) :
    maskBytes n (a ++ b) = maskBytes n a ++ List.replicate b.length 0 := by
  induction a generalizing n with
  | nil =>
    obtain rfl : n = 0 := by
      simp only [prefixBytes, List.length_nil] at h
      omega
    simp [maskBytes, maskBytes_zero]
  | cons x a ih =>
    by_cases hn : 8 ≤ n
    · rw [prefixBytes_of_ge hn] at h
      have hlen : prefixBytes (n - 8) ≤ a.length := by simpa using h
      simp [maskBytes, hn, ih hlen]
    · simp [maskBytes, hn, maskBytes_zero, ← List.replicate_append_replicate]

/-- The loop writes the first bytes, masked. -/
theorem extractLoop_eq {p : List UInt8} (h : prefixBytes n ≤ p.length) :
    extractLoop n p = maskBytes n (p.take (prefixBytes n)) := by
  induction p generalizing n with
  | nil => simp [extractLoop, maskBytes]
  | cons b p ih =>
    by_cases hn : 8 ≤ n
    · -- a whole byte
      rw [prefixBytes_of_ge hn] at h ⊢
      have hlen : prefixBytes (n - 8) ≤ p.length := by simpa using h
      rw [extractLoop, if_neg (by omega), if_neg (by omega), ih hlen, List.take_succ_cons,
        maskBytes, if_pos hn]
    · by_cases hz : n = 0
      · simp [hz, extractLoop, prefixBytes, maskBytes]
      · -- the last byte
        rw [prefixBytes_of_lt (by omega) hz, extractLoop, if_neg hz, if_pos (by omega)]
        simp [maskBytes, hn]

theorem padTo_val (h : l.length ≤ max) :
    (padTo max l).1 = l ++ List.replicate (max - l.length) 0 := by
  simp only [padTo, List.take_append, List.take_of_length_le h, List.take_replicate]
  congr 2
  omega

/-- The array after `extract_prefix_buf` is the masked start of the buffer. -/
theorem padTo_extractLoop {p : List UInt8} (h : prefixBytes n ≤ p.length)
    (hmax : prefixBytes n ≤ max) :
    (padTo max (extractLoop n p)).1 =
      maskBytes n (p.take (prefixBytes n) ++ List.replicate (max - prefixBytes n) 0) := by
  have hlen : (p.take (prefixBytes n)).length = prefixBytes n := by
    rw [List.length_take, Nat.min_eq_left h]
  rw [padTo_val, extractLoop_eq h, length_maskBytes, hlen, maskBytes_append _ hlen.ge,
    List.length_replicate]
  rw [extractLoop_eq h, length_maskBytes, hlen]
  exact hmax

theorem extractPrefixBuf_masked {a : Bytes max} (h : extractPrefixBuf buf n max = some (a, rest)) :
    maskBytes n a.1 = a.1 ∧ prefixBytes n ≤ max := by
  simp only [extractPrefixBuf] at h
  split_ifs at h with hlen
  push Not at hlen
  simp only [Option.some.injEq, Prod.mk.injEq] at h
  rw [← h.1, padTo_extractLoop hlen.1 hlen.2, maskBytes_maskBytes]
  exact ⟨rfl, hlen.2⟩

theorem extractPrefixBuf_take {a : Bytes max} (hmask : maskBytes n a.1 = a.1)
    (hmax : prefixBytes n ≤ max) (tail : List UInt8) :
    extractPrefixBuf (a.1.take (prefixBytes n) ++ tail) n max = some (a, tail) := by
  have hlen : (a.1.take (prefixBytes n)).length = prefixBytes n := by
    rw [List.length_take, a.2, Nat.min_eq_left hmax]
  have hle : prefixBytes n ≤ (a.1.take (prefixBytes n) ++ tail).length := by
    rw [List.length_append, hlen]
    exact Nat.le_add_right _ _
  rw [extractPrefixBuf, if_neg (by omega), List.drop_left' hlen]
  congr 2
  apply Subtype.ext
  have hdrop : (a.1.drop (prefixBytes n)).length = max - prefixBytes n := by
    rw [List.length_drop, a.2]
  rw [padTo_extractLoop hle hmax, List.take_left' hlen, maskBytes_append _ hlen.ge,
    List.length_replicate, ← hdrop, ← maskBytes_append _ hlen.ge, List.take_append_drop, hmask]

/-! ## Plain prefixes -/

/-- What the decoders promise of a prefix: it fits and is masked. -/
structure PrefixOk (a : Bytes max) (plen : ℕ) : Prop where
  le : plen ≤ max * 8
  masked : maskBytes plen a.1 = a.1

theorem PrefixOk.prefixBytes_le {a : Bytes max} (h : PrefixOk a plen) : prefixBytes plen ≤ max := by
  have hle := h.le
  unfold prefixBytes
  omega

/-- `pt_fill` takes it as it is. -/
theorem PrefixOk.applymask_eq {a : Bytes max} (h : PrefixOk a plen) :
    applymask a (min plen (max * 8)) = a := by
  rw [Nat.min_eq_left h.le]
  exact Subtype.ext h.masked

variable {a : Bytes max}

theorem prefixOk_of_nlriGetPlain (h : nlriGetPlain max buf = some (a, plen, rest)) :
    PrefixOk a plen ∧ plen ≤ 255 := by
  simp only [nlriGetPlain, bind, Option.bind_none, Option.bind_eq_some_iff, Prod.exists] at h
  obtain ⟨pfxlen, buf', hlen, h⟩ := h
  split_ifs at h with hle
  simp only [Option.bind_eq_some_iff, Prod.exists, Option.some.injEq, Prod.mk.injEq, pure] at h
  obtain ⟨a', buf'', hext, rfl, rfl, rfl⟩ := h
  exact ⟨⟨by omega, (extractPrefixBuf_masked hext).1⟩, le_of_ibufGetN8 hlen⟩

/-- Encoding and decoding of a plain prefix. -/
theorem nlriGetPlain_write (hok : PrefixOk a plen) (hlen : plen ≤ 255) :
    ∃ nlri, writePlain plen a.1 = some nlri ∧
      ∀ tail, nlriGetPlain max (nlri ++ tail) = some (a, plen, tail) := by
  refine ⟨UInt8.ofNat plen :: a.1.take (prefixBytes plen), ?_, fun tail => ?_⟩
  · simp [writePlain, ibufAddN8_of_le hlen]
  · have hle := hok.le
    simp [nlriGetPlain, toNat_ofNat_of_le hlen, not_lt.2 hle,
      extractPrefixBuf_take hok.masked hok.prefixBytes_le]

/-! ## VPN prefixes -/

/-- A label stack that was read is read again, with any length and anything behind it. -/
theorem labelLoop_again {labelstack labelstack' : List UInt8} {plen' : ℕ}
    (h : labelLoop false n labelstack plen buf = some (labelstack', plen', rest)) :
    ∃ stack, labelstack' = labelstack ++ stack ∧ plen = plen' + stack.length * 8 ∧
      3 ≤ stack.length ∧ ∀ ls p tail, labelLoop false n ls (p + stack.length * 8) (stack ++ tail) =
        some (ls ++ stack, p, tail) := by
  induction n generalizing labelstack plen buf with
  | zero => exact absurd h (by simp [labelLoop])
  | succ n ih =>
    simp only [labelLoop, bind, Option.bind_none, Bool.false_eq_true, if_false] at h
    split_ifs at h with hplen
    simp only [Option.bind_eq_some_iff, Prod.exists] at h
    obtain ⟨label, buf', hlabel, h⟩ := h
    have hlen := label.2
    by_cases hbos : isBos label = true
    · -- the bottom of the stack
      rw [if_pos hbos] at h
      simp only [pure, Option.some.injEq, Prod.mk.injEq] at h
      obtain ⟨rfl, rfl, rfl⟩ := h
      refine ⟨label.1, rfl, by omega, hlen.ge, fun ls p tail => ?_⟩
      simp [labelLoop, hlen, hbos]
    · rw [if_neg hbos] at h
      obtain ⟨stack, hstack, hplen', -, hagain⟩ := ih h
      refine ⟨label.1 ++ stack, by simp [hstack], ?_, ?_, fun ls p tail => ?_⟩
      · rw [List.length_append]
        omega
      · rw [List.length_append]
        omega
      · have hge : ¬p + (3 + stack.length) * 8 < 24 := by omega
        have hsub : p + (3 + stack.length) * 8 - 24 = p + stack.length * 8 := by omega
        simp [labelLoop, hlen, hbos, hge, hsub, hagain, List.append_assoc]

/-- What the decoders promise of a VPN route. -/
structure VpnOk (withdraw : Bool) (a : Bytes max) (labelstack : List UInt8) (plen : ℕ) : Prop where
  ok : PrefixOk a plen
  le : plen + 8 * 8 + 3 * 8 ≤ 255
  /-- The label stack can be read again. -/
  labels : withdraw = false → plen + 8 * 8 + labelstack.length * 8 ≤ 255 ∧
    ∀ p tail, labelLoop false 6 [] (p + labelstack.length * 8) (labelstack ++ tail) =
      some (labelstack, p, tail)

/-- What `nlri_get_vpn` accepts has labels and a length that can be written again. -/
theorem vpnOk_of_nlriGetVpn {withdraw : Bool} {rd : Bytes 8} {labelstack : List UInt8}
    (h : nlriGetVpn max withdraw buf = some (rd, a, labelstack, plen, rest)) :
    VpnOk withdraw a labelstack plen := by
  simp only [nlriGetVpn, bind, Option.bind_none, Option.bind_eq_some_iff, Prod.exists] at h
  obtain ⟨pfxlen, buf₁, hlen, stack, pfxlen', buf₂, hstack, h⟩ := h
  by_cases hrd : pfxlen' < 8 * 8
  · exact absurd h (by simp [hrd])
  rw [if_neg hrd] at h
  simp only [Option.bind_eq_some_iff, Prod.exists] at h
  obtain ⟨rd', buf₃, -, h⟩ := h
  split_ifs at h with hle
  simp only [Option.bind_eq_some_iff, Prod.exists, Option.some.injEq, Prod.mk.injEq, pure] at h
  obtain ⟨a', buf₄, hext, rfl, rfl, rfl, rfl, rfl⟩ := h
  have hbyte := le_of_ibufGetN8 hlen
  have hok : PrefixOk a' (pfxlen' - 8 * 8) := ⟨by omega, (extractPrefixBuf_masked hext).1⟩
  cases withdraw with
  | true =>
    simp only [labelLoop, bind, Option.bind_none, if_true] at hstack
    split_ifs at hstack with hplen
    simp only [Option.bind_eq_some_iff, pure, Option.some.injEq, Prod.mk.injEq] at hstack
    obtain ⟨buf', -, -, rfl, rfl⟩ := hstack
    exact ⟨hok, by omega, fun h => absurd h (by simp)⟩
  | false =>
    obtain ⟨stack', hst, hplen, hpos, hagain⟩ := labelLoop_again hstack
    rw [List.nil_append] at hst
    subst hst
    exact ⟨hok, by omega, fun _ => ⟨by omega, fun p tail => hagain [] p tail⟩⟩

/-- Encoding and decoding of a VPN route. -/
theorem nlriGetVpn_write {rd : Bytes 8} {labelstack : List UInt8}
    (hok : VpnOk false a labelstack plen) :
    ∃ nlri, writeVpn plen rd a.1 labelstack false = some nlri ∧
      ∀ tail, nlriGetVpn max false (nlri ++ tail) = some (rd, a, labelstack, plen, tail) := by
  obtain ⟨hlen, hlabels⟩ := hok.labels rfl
  refine ⟨UInt8.ofNat (plen + 8 * 8 + labelstack.length * 8) ::
    (labelstack ++ (rd.1 ++ a.1.take (prefixBytes plen))), ?_, fun tail => ?_⟩
  · simp [writeVpn, ibufAddN8_of_le hlen, List.append_assoc]
  · have hle := hok.ok.le
    simp only [nlriGetVpn, List.cons_append, ibufGetN8_cons, toNat_ofNat_of_le hlen, bind,
      Option.bind_some, List.append_assoc, hlabels]
    simp [not_lt.2 hle, extractPrefixBuf_take hok.ok.masked hok.ok.prefixBytes_le]

/-- A withdraw is decoded to the same prefix, without labels. -/
theorem nlriGetVpn_withdraw {withdraw : Bool} {rd : Bytes 8} {labelstack : List UInt8}
    (hok : VpnOk withdraw a labelstack plen) :
    ∃ nlri, writeVpn plen rd a.1 labelstack true = some nlri ∧
      ∀ tail, nlriGetVpn max true (nlri ++ tail) = some (rd, a, [], plen, tail) := by
  refine ⟨UInt8.ofNat (plen + 8 * 8 + 3 * 8) ::
    ([0x80, 0, 0] ++ (rd.1 ++ a.1.take (prefixBytes plen))), ?_, fun tail => ?_⟩
  · simp only [writeVpn, if_true, ibufAddN8_of_le hok.le]
    simp
  · have hle := hok.ok.le
    simp only [nlriGetVpn, List.cons_append, ibufGetN8_cons, toNat_ofNat_of_le hok.le, bind,
      Option.bind_some, List.append_assoc]
    simp [labelLoop, ibufSkip, not_lt.2 hle,
      extractPrefixBuf_take hok.ok.masked hok.ok.prefixBytes_le]

/-! ## EVPN routes -/

/-- The length that belongs to an address. -/
def EvpnIp.len : EvpnIp → ℕ
  | unspec => 0
  | v4 _ => 32
  | v6 _ => 128

theorem EvpnIp.len_le (ip : EvpnIp) : ip.len ≤ 255 := by
  cases ip <;> simp [EvpnIp.len]

theorem EvpnIp.length_bytes (ip : EvpnIp) : ip.bytes.length * 8 = ip.len := by
  cases ip with
  | unspec => rfl
  | v4 a => simp [EvpnIp.bytes, EvpnIp.len, a.2]
  | v6 a => simp [EvpnIp.bytes, EvpnIp.len, a.2]

theorem len_of_evpnDest {ip : EvpnIp} (h : evpnDest plen buf = some (ip, rest)) :
    plen = ip.len := by
  unfold evpnDest at h
  split_ifs at h with h₀ h₁ h₂
  · cases h
    exact h₀
  · simp only [Option.map_eq_some_iff, Prod.exists, Prod.mk.injEq] at h
    obtain ⟨a, _, -, rfl, -⟩ := h
    exact h₁
  · simp only [Option.map_eq_some_iff, Prod.exists, Prod.mk.injEq] at h
    obtain ⟨a, _, -, rfl, -⟩ := h
    exact h₂

theorem evpnDest_bytes (ip : EvpnIp) (tail : List UInt8) :
    evpnDest ip.len (ip.bytes ++ tail) = some (ip, tail) := by
  cases ip with
  | unspec => rfl
  | v4 a => simp [evpnDest, EvpnIp.len, EvpnIp.bytes]
  | v6 a => simp [evpnDest, EvpnIp.len, EvpnIp.bytes]

/-- What `nlri_get_evpn` promises. -/
structure EvpnOk (e : EvpnAddr) (plen : ℕ) : Prop where
  len : plen = e.ip.len
  labels : e.type = .type2 → e.labelstack.length = 3 ∨ e.labelstack.length = 6
  /-- A route of type 3 has a destination and nothing else. -/
  rest : e.type = .type3 → e.ip ≠ .unspec ∧ e.mac = padTo 6 [] ∧ e.esi = padTo 10 [] ∧
    e.labelstack = []

theorem evpnOk_of_nlriGetEvpn2 {e : EvpnAddr} (h : nlriGetEvpn2 buf = some (e, plen)) :
    EvpnOk e plen := by
  simp only [nlriGetEvpn2, bind, Option.bind_none, Option.bind_eq_some_iff, Prod.exists] at h
  obtain ⟨rd, _, -, esi, _, -, ethtag, _, -, maclen, _, -, h⟩ := h
  by_cases hmac : maclen ≠ 48
  · exact absurd h (by simp [hmac])
  rw [if_neg hmac] at h
  simp only [Option.bind_eq_some_iff, Prod.exists] at h
  obtain ⟨mac, _, -, pfxlen, _, -, ip, vni, hip, h⟩ := h
  split_ifs at h with hvni
  cases h
  exact ⟨len_of_evpnDest hip, fun _ => by tauto, fun h => nomatch h⟩

theorem evpnOk_of_nlriGetEvpn3 {e : EvpnAddr} (h : nlriGetEvpn3 buf = some (e, plen)) :
    EvpnOk e plen := by
  simp only [nlriGetEvpn3, bind, Option.bind_none, Option.bind_eq_some_iff, Prod.exists] at h
  obtain ⟨rd, _, -, ethtag, _, -, pfxlen, _, -, h⟩ := h
  by_cases hlen : pfxlen = 0
  · exact absurd h (by simp [hlen])
  rw [if_neg hlen] at h
  simp only [Option.bind_eq_some_iff, Prod.exists] at h
  obtain ⟨ip, vni, hip, h⟩ := h
  split_ifs at h with hvni
  cases h
  have hne : ip ≠ .unspec := by
    rintro rfl
    exact hlen (len_of_evpnDest hip)
  exact ⟨len_of_evpnDest hip, (fun h => nomatch h), fun _ => ⟨hne, rfl, rfl, rfl⟩⟩

theorem evpnOk_of_nlriGetEvpn {addr : NlriAddr} (h : nlriGetEvpn buf = some (addr, plen, rest)) :
    ∃ e, addr = .evpn e ∧ EvpnOk e plen := by
  simp only [nlriGetEvpn, bind, Option.bind_eq_some_iff, Prod.exists] at h
  obtain ⟨type, _, -, nlrilen, _, -, h⟩ := h
  split_ifs at h with h₂ h₃
  · simp only [Option.bind_eq_some_iff, Prod.exists] at h
    obtain ⟨evpnbuf, _, -, e, pfxlen, he, h⟩ := h
    cases h
    exact ⟨e, rfl, evpnOk_of_nlriGetEvpn2 he⟩
  · simp only [Option.bind_eq_some_iff, Prod.exists] at h
    obtain ⟨evpnbuf, _, -, e, pfxlen, he, h⟩ := h
    cases h
    exact ⟨e, rfl, evpnOk_of_nlriGetEvpn3 he⟩

/-- A MAC/IP route is read back as it was written. -/
theorem nlriGetEvpn2_write {e : EvpnAddr} (hok : EvpnOk e plen) (htype : e.type = .type2) :
    ∃ nlri : List UInt8, writeEvpn2 plen e = some (UInt8.ofNat nlri.length :: nlri) ∧
      nlri.length ≤ 255 ∧ nlriGetEvpn2 nlri = some (e, plen) := by
  have hlabels := hok.labels htype
  have hplen := hok.len
  have hip := e.ip.length_bytes
  have hle := e.ip.len_le
  have hlen : (e.rd.1 ++ e.esi.1 ++ e.ethtag.1 ++ [48] ++ e.mac.1 ++ [UInt8.ofNat plen] ++
      e.ip.bytes ++ e.labelstack).length =
        prefixBytes (8 * 8 + 10 * 8 + 4 * 8 + 8 + 6 * 8 + 8 + plen + e.labelstack.length * 8) := by
    simp only [List.length_append, e.rd.2, e.esi.2, e.ethtag.2, e.mac.2, List.length_singleton]
    unfold prefixBytes
    omega
  have hbyte : prefixBytes (8 * 8 + 10 * 8 + 4 * 8 + 8 + 6 * 8 + 8 + plen +
      e.labelstack.length * 8) ≤ 255 := by
    unfold prefixBytes
    omega
  refine ⟨_, ?_, hlen ▸ hbyte, ?_⟩
  · rw [hlen]
    simp only [writeEvpn2, ibufAddN8_of_le hbyte, ibufAddN8_of_le (hplen ▸ hle)]
    rfl
  · have hvni : ¬(e.labelstack.length ≠ 3 ∧ e.labelstack.length ≠ 6) := by tauto
    simp only [nlriGetEvpn2, List.append_assoc, ibufGet_append, bind, Option.bind_some,
      List.cons_append, List.nil_append, ibufGetN8_cons, toNat_ofNat_of_le (hplen ▸ hle)]
    rw [hplen, evpnDest_bytes]
    simp only [Option.bind_some, if_neg hvni, pure]
    obtain ⟨type, rd, ethtag, mac, esi, ip, labelstack⟩ := e
    simp only at htype
    subst htype
    rfl

/-- A multicast route is read back as it was written. -/
theorem nlriGetEvpn3_write {e : EvpnAddr} (hok : EvpnOk e plen) (htype : e.type = .type3) :
    ∃ nlri : List UInt8, writeEvpn3 plen e = some (UInt8.ofNat nlri.length :: nlri) ∧
      nlri.length ≤ 255 ∧ nlriGetEvpn3 nlri = some (e, plen) := by
  obtain ⟨hne, hmac, hesi, hlabels⟩ := hok.rest htype
  have hplen := hok.len
  have hip := e.ip.length_bytes
  have hle := e.ip.len_le
  have hpos : e.ip.len ≠ 0 := by
    cases hcase : e.ip with
    | unspec => exact absurd hcase hne
    | v4 a => simp [EvpnIp.len]
    | v6 a => simp [EvpnIp.len]
  have hlen : (e.rd.1 ++ e.ethtag.1 ++ [UInt8.ofNat plen] ++ e.ip.bytes).length =
      prefixBytes (8 * 8 + 4 * 8 + 8 + plen) := by
    simp only [List.length_append, e.rd.2, e.ethtag.2, List.length_singleton]
    unfold prefixBytes
    omega
  have hbyte : prefixBytes (8 * 8 + 4 * 8 + 8 + plen) ≤ 255 := by
    unfold prefixBytes
    omega
  refine ⟨_, ?_, hlen ▸ hbyte, ?_⟩
  · rw [hlen]
    simp only [writeEvpn3, ibufAddN8_of_le hbyte, ibufAddN8_of_le (hplen ▸ hle), if_neg hne]
    rfl
  · simp only [nlriGetEvpn3, List.append_assoc, ibufGet_append, bind, Option.bind_some,
      List.cons_append, List.nil_append, ibufGetN8_cons, toNat_ofNat_of_le (hplen ▸ hle)]
    have hdest := evpnDest_bytes e.ip []
    rw [List.append_nil] at hdest
    rw [hplen, if_neg hpos, hdest]
    obtain ⟨type, rd, ethtag, mac, esi, ip, labelstack⟩ := e
    simp only at htype hmac hesi hlabels
    subst htype hmac hesi hlabels
    rfl

/-! ## All families -/

variable {aid : Aid} {withdraw : Bool} {addr : NlriAddr}

/-- Address bits behind the prefix length are zero. EVPN has whole addresses. -/
def NlriAddr.Masked (addr : NlriAddr) (plen : ℕ) : Prop :=
  match addr with
  | .inet v4 | .vpn4 _ v4 _ => maskBytes plen v4.1 = v4.1
  | .inet6 v6 | .vpn6 _ v6 _ => maskBytes plen v6.1 = v6.1
  | .evpn e => plen = e.ip.len

/-- An entry of a decoded route, both ways. -/
structure Again (aid : Aid) (withdraw : Bool) (addr : NlriAddr) (plen : ℕ) : Prop where
  masked : addr.Masked plen
  announce : withdraw = false → ∃ nlri, writeEntry (ptFill addr plen) false = some nlri ∧
    ∀ tail, nlriGet aid false (nlri ++ tail) = some (addr, plen, tail)
  withdraw : ∃ nlri addr', writeEntry (ptFill addr plen) true = some nlri ∧
    (∀ tail, nlriGet aid true (nlri ++ tail) = some (addr', plen, tail)) ∧
    (ptFill addr' plen).key = (ptFill addr plen).key

theorem again_inet (h : nlriGetPrefix buf = some (addr, plen, rest)) :
    Again .inet withdraw addr plen := by
  simp only [nlriGetPrefix, bind, Option.bind_eq_some_iff, Prod.exists] at h
  obtain ⟨a, pfxlen, _, hget, h⟩ := h
  cases h
  obtain ⟨hok, hlen⟩ := prefixOk_of_nlriGetPlain hget
  obtain ⟨nlri, hwrite, hread⟩ := nlriGetPlain_write hok hlen
  have hfill : ptFill (.inet a) plen = .inet plen a := by
    rw [ptFill, hok.applymask_eq, Nat.min_eq_left hok.le]
  have hdec : ∀ tail, nlriGetPrefix (nlri ++ tail) = some (.inet a, plen, tail) := fun tail => by
    simp [nlriGetPrefix, hread]
  refine ⟨hok.masked, fun _ => ⟨nlri, ?_, hdec⟩, ⟨nlri, .inet a, ?_, hdec, rfl⟩⟩
  · rw [hfill]
    exact hwrite
  · rw [hfill]
    exact hwrite

theorem again_inet6 (h : nlriGetPrefix6 buf = some (addr, plen, rest)) :
    Again .inet6 withdraw addr plen := by
  simp only [nlriGetPrefix6, bind, Option.bind_eq_some_iff, Prod.exists] at h
  obtain ⟨a, pfxlen, _, hget, h⟩ := h
  cases h
  obtain ⟨hok, hlen⟩ := prefixOk_of_nlriGetPlain hget
  obtain ⟨nlri, hwrite, hread⟩ := nlriGetPlain_write hok hlen
  have hfill : ptFill (.inet6 a) plen = .inet6 plen a := by
    rw [ptFill, hok.applymask_eq, Nat.min_eq_left hok.le]
  have hdec : ∀ tail, nlriGetPrefix6 (nlri ++ tail) = some (.inet6 a, plen, tail) := fun tail => by
    simp [nlriGetPrefix6, hread]
  refine ⟨hok.masked, fun _ => ⟨nlri, ?_, hdec⟩, ⟨nlri, .inet6 a, ?_, hdec, rfl⟩⟩
  · rw [hfill]
    exact hwrite
  · rw [hfill]
    exact hwrite

/-- A decoded VPNv4 prefix can be written and is read back. -/
theorem again_vpn4 (h : nlriGetVpn4 withdraw buf = some (addr, plen, rest)) :
    Again .vpn4 withdraw addr plen := by
  simp only [nlriGetVpn4, bind, Option.bind_eq_some_iff, Prod.exists] at h
  obtain ⟨rd, a, labelstack, pfxlen, _, hget, h⟩ := h
  cases h
  have hok := vpnOk_of_nlriGetVpn hget
  have hfill : ∀ labels, ptFill (.vpn4 rd a labels) plen = .vpn4 plen rd a labels :=
    fun labels => by
    rw [ptFill, hok.ok.applymask_eq, Nat.min_eq_left hok.ok.le]
  refine ⟨hok.ok.masked, fun hw => ?_, ?_⟩
  · subst hw
    obtain ⟨nlri, hwrite, hread⟩ := nlriGetVpn_write hok
    refine ⟨nlri, ?_, fun tail => ?_⟩
    · rw [hfill]
      exact hwrite
    · simp [nlriGet, nlriGetVpn4, hread]
  · obtain ⟨nlri, hwrite, hread⟩ := nlriGetVpn_withdraw hok
    refine ⟨nlri, .vpn4 rd a [], ?_, fun tail => ?_, ?_⟩
    · rw [hfill]
      exact hwrite
    · simp [nlriGet, nlriGetVpn4, hread]
    · rw [hfill, hfill]
      rfl

/-- A decoded VPNv6 prefix can be written and is read back. -/
theorem again_vpn6 (h : nlriGetVpn6 withdraw buf = some (addr, plen, rest)) :
    Again .vpn6 withdraw addr plen := by
  simp only [nlriGetVpn6, bind, Option.bind_eq_some_iff, Prod.exists] at h
  obtain ⟨rd, a, labelstack, pfxlen, _, hget, h⟩ := h
  cases h
  have hok := vpnOk_of_nlriGetVpn hget
  have hfill : ∀ labels, ptFill (.vpn6 rd a labels) plen = .vpn6 plen rd a labels :=
    fun labels => by
    rw [ptFill, hok.ok.applymask_eq, Nat.min_eq_left hok.ok.le]
  refine ⟨hok.ok.masked, fun hw => ?_, ?_⟩
  · subst hw
    obtain ⟨nlri, hwrite, hread⟩ := nlriGetVpn_write hok
    refine ⟨nlri, ?_, fun tail => ?_⟩
    · rw [hfill]
      exact hwrite
    · simp [nlriGet, nlriGetVpn6, hread]
  · obtain ⟨nlri, hwrite, hread⟩ := nlriGetVpn_withdraw hok
    refine ⟨nlri, .vpn6 rd a [], ?_, fun tail => ?_, ?_⟩
    · rw [hfill]
      exact hwrite
    · simp [nlriGet, nlriGetVpn6, hread]
    · rw [hfill, hfill]
      rfl

theorem ptFill_evpn {e : EvpnAddr} (hok : EvpnOk e plen) :
    ptFill (.evpn e) plen = .evpn plen e := by
  have hlen := hok.len
  cases hip : e.ip with
  | unspec => simp [ptFill, hip]
  | v4 a => simp [ptFill, hip, hlen, EvpnIp.len]
  | v6 a => simp [ptFill, hip, hlen, EvpnIp.len]

/-- A decoded EVPN route can be written and is read back. -/
theorem again_evpn (h : nlriGetEvpn buf = some (addr, plen, rest)) :
    Again .evpn withdraw addr plen := by
  obtain ⟨e, rfl, hok⟩ := evpnOk_of_nlriGetEvpn h
  -- the same bytes are written for a withdraw
  obtain ⟨nlri, hwrite, hread⟩ : ∃ nlri, (∀ w, writeEntry (.evpn plen e) w = some nlri) ∧
      ∀ tail, nlriGetEvpn (nlri ++ tail) = some (.evpn e, plen, tail) := by
    cases htype : e.type with
    | type2 =>
      obtain ⟨nlri, hwrite, hlen, hread⟩ := nlriGetEvpn2_write hok htype
      refine ⟨2 :: UInt8.ofNat nlri.length :: nlri, fun w => ?_, fun tail => ?_⟩
      · simp [writeEntry, htype, hwrite, ibufAddN8]
      · have hbuf := ibufGet_append (⟨nlri, rfl⟩ : Bytes nlri.length) tail
        simp [nlriGetEvpn, toNat_ofNat_of_le hlen, hbuf, hread]
    | type3 =>
      obtain ⟨nlri, hwrite, hlen, hread⟩ := nlriGetEvpn3_write hok htype
      refine ⟨3 :: UInt8.ofNat nlri.length :: nlri, fun w => ?_, fun tail => ?_⟩
      · simp [writeEntry, htype, hwrite, ibufAddN8]
      · have hbuf := ibufGet_append (⟨nlri, rfl⟩ : Bytes nlri.length) tail
        simp [nlriGetEvpn, toNat_ofNat_of_le hlen, hbuf, hread]
  refine ⟨hok.len, fun _ => ⟨nlri, ?_, hread⟩, ⟨nlri, .evpn e, ?_, hread, rfl⟩⟩
  · rw [ptFill_evpn hok]
    exact hwrite false
  · rw [ptFill_evpn hok]
    exact hwrite true

theorem again_of_nlriGet (h : nlriGet aid withdraw buf = some (addr, plen, rest)) :
    Again aid withdraw addr plen := by
  cases aid with
  | inet => exact again_inet h
  | inet6 => exact again_inet6 h
  | vpn4 => exact again_vpn4 h
  | vpn6 => exact again_vpn6 h
  | evpn => exact again_evpn h
  | flowspec4 => exact absurd h (by simp [nlriGet])
  | flowspec6 => exact absurd h (by simp [nlriGet])

/-- What `pt_writebuf` needs beside the bytes. -/
def reserved (withdraw : Bool) : ℕ := if withdraw then 2 else 0

theorem ptWritebuf_eq {pte : PtEntry} {nlri out : List UInt8} {addPath : Bool} {pathid : UInt32}
    (hwrite : writeEntry pte withdraw = some nlri)
    (hspace : out.length + ((if addPath then ibufAddN32 pathid else []) ++ nlri).length +
      reserved withdraw ≤ max) :
    ptWritebuf out max pte withdraw addPath pathid =
      some (out ++ ((if addPath then ibufAddN32 pathid else []) ++ nlri)) := by
  generalize htmp : (if addPath then ibufAddN32 pathid else []) ++ nlri = tmp at hspace ⊢
  have hleft : ¬max - out.length < tmp.length := by omega
  have hreserved : ¬(withdraw = true ∧ max - out.length < tmp.length + 2) := by
    rintro ⟨rfl, hlt⟩
    simp only [reserved, if_true] at hspace
    omega
  simp only [ptWritebuf, hwrite, bind, Option.bind_some, htmp, if_neg hleft, if_neg hreserved, pure]

theorem nlriGetPath_eq {nlri : List UInt8} {addPath : Bool} {pathid : UInt32}
    (hread : ∀ tail, nlriGet aid withdraw (nlri ++ tail) = some (addr, plen, tail))
    (tail : List UInt8) :
    nlriGetPath aid addPath withdraw
        (((if addPath then ibufAddN32 pathid else []) ++ nlri) ++ tail) =
      some (if addPath then pathid else 0, addr, plen, tail) := by
  cases addPath with
  | true => simp [nlriGetPath, List.append_assoc, ibufGetN32_ibufAddN32, hread]
  | false => simp [nlriGetPath, hread]

/-- The round trip. A route that was decoded is written if there is space, and read again with
    all its fields; a withdraw of it is read as the same route. -/
theorem nlriGet_ptWritebuf (h : nlriGet aid withdraw buf = some (addr, plen, rest))
    (addPath : Bool) (pathid : UInt32) :
    addr.Masked plen ∧
    (withdraw = false → ∃ nlri : List UInt8,
      (∀ out max, out.length + nlri.length ≤ max →
        ptWritebuf out max (ptFill addr plen) false addPath pathid = some (out ++ nlri)) ∧
      ∀ tail, nlriGetPath aid addPath false (nlri ++ tail) =
        some (if addPath then pathid else 0, addr, plen, tail)) ∧
    ∃ (nlri : List UInt8) (addr' : NlriAddr),
      (∀ out max, out.length + nlri.length + 2 ≤ max →
        ptWritebuf out max (ptFill addr plen) true addPath pathid = some (out ++ nlri)) ∧
      (∀ tail, nlriGetPath aid addPath true (nlri ++ tail) =
        some (if addPath then pathid else 0, addr', plen, tail)) ∧
      (ptFill addr' plen).key = (ptFill addr plen).key := by
  have hagain := again_of_nlriGet h
  refine ⟨hagain.masked, fun hw => ?_, ?_⟩
  · obtain ⟨nlri, hwrite, hread⟩ := hagain.announce hw
    refine ⟨_, fun out max hspace => ptWritebuf_eq hwrite hspace, nlriGetPath_eq hread⟩
  · obtain ⟨nlri, addr', hwrite, hread, hkey⟩ := hagain.withdraw
    refine ⟨_, addr', fun out max hspace => ptWritebuf_eq hwrite hspace, nlriGetPath_eq hread, hkey⟩

/-- A VPNv4 route with one label. -/
theorem nlriGet_ptWritebuf_vpn :
    nlriGet .vpn4 false [112, 0, 1, 1, 0, 0, 253, 232, 0, 0, 0, 7, 10, 1, 2] =
        some (.vpn4 ⟨[0, 0, 253, 232, 0, 0, 0, 7], rfl⟩ ⟨[10, 1, 2, 0], rfl⟩ [0, 1, 1], 24, []) ∧
      ∃ nlri : List UInt8, ∀ tail, nlriGetPath .vpn4 true false (nlri ++ tail) =
        some (5, .vpn4 ⟨[0, 0, 253, 232, 0, 0, 0, 7], rfl⟩ ⟨[10, 1, 2, 0], rfl⟩ [0, 1, 1], 24,
          tail) := by
  have hget : nlriGet .vpn4 false [112, 0, 1, 1, 0, 0, 253, 232, 0, 0, 0, 7, 10, 1, 2] =
      some (.vpn4 ⟨[0, 0, 253, 232, 0, 0, 0, 7], rfl⟩ ⟨[10, 1, 2, 0], rfl⟩ [0, 1, 1], 24, []) := by
    decide
  obtain ⟨nlri, -, hread⟩ := (nlriGet_ptWritebuf hget true 5).2.1 rfl
  exact ⟨hget, nlri, hread⟩

end Bgpd.Rde.Nlri
