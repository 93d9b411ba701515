import Bgpd.Lib.Run
import Bgpd.Rde.Flowspec
import Bgpd.Rde.NlriSpec
import Bgpd.Rde.UpdateMsg

/-!
# The Update Queues Drain

Every message takes a prefix off its queue if `pt_writebuf` can write the first one into an empty
message. It can not write a flowspec NLRI of more than 255 bytes, as `ibuf_add_n8` refuses the
low byte of such a length; the prefix stays at the head of its queue.

## Main results

- `Admitted.writeEntry`: a withdraw of any other prefix is short
- `upDumpWithdraws_rest`, `upDumpUpdate_rest`: what a message takes off a queue
- `up_dump_progress`: a message takes a prefix off, and the queues drain, if no prefix is too long
-/

namespace Bgpd.Rde.Msg

open Nlri Bgpd.Lib

/-! ## Prefixes -/

/-- The prefixes that the RDE admits: what it decodes, the networks of the configuration and of
    `bgpctl`, with one label for a VPN, and flowspec rules. -/
inductive Admitted : Nlri.PtEntry → Prop
  | decoded {aid : Aid} {withdraw : Bool} {buf rest : List UInt8} {addr : NlriAddr} {plen : ℕ}
    (h : nlriGet aid withdraw buf = some (addr, plen, rest)) : Admitted (ptFill addr plen)
  | network4 (v4 : Bytes 4) (plen : ℕ) : Admitted (ptFill (.inet v4) plen)
  | network6 (v6 : Bytes 16) (plen : ℕ) : Admitted (ptFill (.inet6 v6) plen)
  | vpn4 (rd : Bytes 8) (v4 : Bytes 4) (label : Bytes 3) (plen : ℕ) :
    Admitted (ptFill (.vpn4 rd v4 label.1) plen)
  | vpn6 (rd : Bytes 8) (v6 : Bytes 16) (label : Bytes 3) (plen : ℕ) :
    Admitted (ptFill (.vpn6 rd v6 label.1) plen)
  | flow {isV6 : Bool} {flow : List UInt8} (h : flowspecValid flow isV6 = true) :
    Admitted (.flow isV6 flow)

/-- A flowspec NLRI whose length does not fit into a byte. -/
def TooLong : Nlri.PtEntry → Prop
  | .flow _ flow => 255 < flow.length
  | _ => False

instance : DecidablePred TooLong := fun pt => by
  cases pt <;> unfold TooLong <;> infer_instance

/-- `pt_writebuf` needs no more space than this for a withdraw. -/
def withdrawSpace : ℕ := 300

theorem writePlain_short {plen : ℕ} (h : plen ≤ 255) (a : List UInt8) :
    ∃ nlri, writePlain plen a = some nlri ∧ nlri.length ≤ 1 + a.length := by
  refine ⟨UInt8.ofNat plen :: a.take (prefixBytes plen), ?_, ?_⟩
  · simp [writePlain, ibufAddN8_of_le h]
  · rw [List.length_cons, Nat.add_comm]
    exact Nat.add_le_add_left (List.length_take_le' _ _) 1

theorem writeVpn_short {plen : ℕ} (h : plen ≤ 128) (rd : Bytes 8) (a labelstack : List UInt8) :
    ∃ nlri, writeVpn plen rd a labelstack true = some nlri ∧ nlri.length ≤ 12 + a.length := by
  have hlen : plen + 8 * 8 + 3 * 8 ≤ 255 := by omega
  refine ⟨UInt8.ofNat (plen + 8 * 8 + 3 * 8) :: [0x80, 0, 0] ++ rd.1 ++ a.take (prefixBytes plen),
    ?_, ?_⟩
  · simp [writeVpn, ibufAddN8_of_le hlen]
  · simp only [List.length_append, List.length_cons, List.length_nil, rd.2]
    have := List.length_take_le' (prefixBytes plen) a
    omega

theorem writeEvpn_short {e : EvpnAddr} {plen : ℕ} (hok : EvpnOk e plen) :
    ∃ nlri, writeEntry (.evpn plen e) true = some nlri ∧ nlri.length ≤ withdrawSpace := by
  cases htype : e.type with
  | type2 =>
    obtain ⟨nlri, hwrite, hlen, -⟩ := nlriGetEvpn2_write hok htype
    refine ⟨2 :: UInt8.ofNat nlri.length :: nlri, ?_, ?_⟩
    · simp [writeEntry, htype, hwrite, ibufAddN8]
    · simp only [List.length_cons, withdrawSpace]
      omega
  | type3 =>
    obtain ⟨nlri, hwrite, hlen, -⟩ := nlriGetEvpn3_write hok htype
    refine ⟨3 :: UInt8.ofNat nlri.length :: nlri, ?_, ?_⟩
    · simp [writeEntry, htype, hwrite, ibufAddN8]
    · simp only [List.length_cons, withdrawSpace]
      omega

theorem writeFlow_short {flow : List UInt8} (h : flow.length ≤ 255) :
    ∃ nlri, writeFlow flow = some nlri ∧ nlri.length ≤ withdrawSpace := by
  unfold writeFlow withdrawSpace
  by_cases hlimit : flow.length < 0xf0
  · refine ⟨UInt8.ofNat flow.length :: flow, ?_, ?_⟩
    · simp [hlimit, ibufAddN8_of_le h]
    · simp only [List.length_cons]
      omega
  · have hhigh : 0xf0 ||| (flow.length >>> 8) ≤ 255 := by
      rw [Nat.shiftRight_eq_div_pow, Nat.div_eq_of_lt (by omega)]
      decide
    refine ⟨UInt8.ofNat (0xf0 ||| (flow.length >>> 8)) :: UInt8.ofNat flow.length :: flow, ?_, ?_⟩
    · simp [hlimit, ibufAddN8_of_le h, ibufAddN8_of_le hhigh]
    · simp only [List.length_cons]
      omega

/-- An address of a plain or VPN family is written, whatever its length was. -/
theorem writeEntry_ptFill {addr : NlriAddr} {plen : ℕ} (h : ∀ e, addr ≠ .evpn e) :
    ∃ nlri, writeEntry (ptFill addr plen) true = some nlri ∧ nlri.length ≤ withdrawSpace := by
  have h4 : min plen 32 ≤ 32 := Nat.min_le_right _ _
  have h6 : min plen 128 ≤ 128 := Nat.min_le_right _ _
  cases addr with
  | inet v4 =>
    obtain ⟨nlri, hw, hlen⟩ :=
      writePlain_short (h4.trans (by decide)) (applymask v4 (min plen 32)).1
    exact ⟨nlri, hw, hlen.trans (by rw [(applymask _ _).2]; decide)⟩
  | inet6 v6 =>
    obtain ⟨nlri, hw, hlen⟩ :=
      writePlain_short (h6.trans (by decide)) (applymask v6 (min plen 128)).1
    exact ⟨nlri, hw, hlen.trans (by rw [(applymask _ _).2]; decide)⟩
  | vpn4 rd v4 labelstack =>
    obtain ⟨nlri, hw, hlen⟩ := writeVpn_short (h4.trans (by decide)) rd
      (applymask v4 (min plen 32)).1 labelstack
    exact ⟨nlri, hw, hlen.trans (by rw [(applymask _ _).2]; decide)⟩
  | vpn6 rd v6 labelstack =>
    obtain ⟨nlri, hw, hlen⟩ := writeVpn_short h6 rd (applymask v6 (min plen 128)).1 labelstack
    exact ⟨nlri, hw, hlen.trans (by rw [(applymask _ _).2]; decide)⟩
  | evpn e => exact absurd rfl (h e)

/-- A prefix that is admitted and not too long is written, and this takes little space. -/
theorem Admitted.writeEntry {pt : Nlri.PtEntry} (h : Admitted pt) (hlong : ¬TooLong pt) :
    ∃ nlri, writeEntry pt true = some nlri ∧ nlri.length ≤ withdrawSpace := by
  cases h with
  | @decoded aid withdraw buf rest addr plen hget =>
    by_cases hevpn : ∀ e, addr ≠ .evpn e
    · exact writeEntry_ptFill hevpn
    · obtain ⟨e, he⟩ := not_forall.mp hevpn
      obtain rfl := not_not.mp he
      -- only the EVPN decoder has such addresses
      have hok : EvpnOk e plen := by
        cases aid with
        | evpn =>
          obtain ⟨e', heq, hok⟩ := evpnOk_of_nlriGetEvpn hget
          cases heq
          exact hok
        | inet =>
          obtain ⟨x, -, hx⟩ := Option.bind_eq_some_iff.mp hget
          cases hx
        | inet6 =>
          obtain ⟨x, -, hx⟩ := Option.bind_eq_some_iff.mp hget
          cases hx
        | vpn4 =>
          obtain ⟨x, -, hx⟩ := Option.bind_eq_some_iff.mp hget
          cases hx
        | vpn6 =>
          obtain ⟨x, -, hx⟩ := Option.bind_eq_some_iff.mp hget
          cases hx
        | flowspec4 => cases hget
        | flowspec6 => cases hget
      rw [ptFill_evpn hok]
      exact writeEvpn_short hok
  | network4 v4 plen => exact writeEntry_ptFill (by simp)
  | network6 v6 plen => exact writeEntry_ptFill (by simp)
  | vpn4 rd v4 label plen => exact writeEntry_ptFill (by simp)
  | vpn6 rd v6 label plen => exact writeEntry_ptFill (by simp)
  | flow _ => exact writeFlow_short (Nat.le_of_not_lt hlong)

/-- The low byte of a long length is refused. -/
theorem TooLong.writeEntry {pt : Nlri.PtEntry} (h : TooLong pt) (withdraw : Bool) :
    writeEntry pt withdraw = none := by
  cases pt with
  | flow isV6 flow =>
    have hlow : ibufAddN8 flow.length = none := if_pos h
    have hlimit : ¬flow.length < 0xf0 := by
      have : 255 < flow.length := h
      omega
    simp [Nlri.writeEntry, writeFlow, hlimit, hlow]
  | _ => exact h.elim

theorem TooLong.ptWritebuf {pt : Nlri.PtEntry} (h : TooLong pt) (buf : List UInt8) (max : ℕ)
    (withdraw addPath : Bool) (pathid : UInt32) :
    ptWritebuf buf max pt withdraw addPath pathid = none := by
  rw [Nlri.ptWritebuf, h.writeEntry withdraw]
  rfl

/-! ## One message -/

variable {peer : MsgPeer} {aid : Aid} {max : ℕ} {buf buf' : List UInt8} {withdraw : Bool}
  {p : PendPrefix} {ps rest : List PendPrefix} {pa : PendAttr} {us : List (Option PendAttr)}

theorem le_maxBody (peer : MsgPeer) : 4077 ≤ maxBody peer := by
  unfold maxBody
  split_ifs <;> decide

theorem ibufAdd_eq {data : List UInt8} (h : buf.length + data.length ≤ max) :
    ibufAdd max data buf = some (buf ++ data) := if_neg (Nat.not_lt.mpr h)

/-- The part of a message with withdraws before the prefixes. -/
def withdrawHead (aid : Aid) : List UInt8 :=
  if aid = .inet then [0, 0]
  else [0, 0, 0, 0, Parse.attrOptional ||| Parse.attrExtlen, 15, 0, 0] ++
    (beBytes 2 (aid2afi aid).1 ++ [UInt8.ofNat (aid2afi aid).2])

theorem length_withdrawHead (aid : Aid) :
    2 ≤ (withdrawHead aid).length ∧ (withdrawHead aid).length ≤ 11 := by
  cases aid <;> decide

theorem withdrawStart_eq (h : 4077 ≤ max) (aid : Aid) :
    withdrawStart max aid = some (withdrawHead aid) := by
  have hadd : ∀ data buf : List UInt8, buf.length + data.length ≤ 4077 →
      ibufAdd max data buf = some (buf ++ data) := fun data buf hlen => ibufAdd_eq (hlen.trans h)
  have hzero : ibufAdd max [0, 0] [] = some [0, 0] := hadd _ _ (by decide)
  cases aid with
  | inet => simp [withdrawStart, withdrawHead, ibufAddZero, hzero]
  | _ =>
    simp [withdrawStart, withdrawHead, ibufAddZero, ibufAddN16, aid2afi, beBytes, hadd]

/-- The space behind the prefixes is there if a withdraw was written. -/
theorem withdrawEnd_isSome (h : buf.length + 2 ≤ max) (hlen : 2 ≤ buf.length) (aid : Aid) :
    (withdrawEnd max aid buf).isSome = true := by
  unfold withdrawEnd
  split_ifs
  · unfold ibufAddZero ibufAdd
    have hset : (ibufSet 0 (beBytes 2 (buf.length - 2)) buf).length = buf.length := by
      simp [ibufSet, beBytes]
      omega
    rw [if_neg]
    · rfl
    · rw [hset, List.length_replicate]
      exact Nat.not_lt.mpr h
  · rfl

theorem dumpPrefixLoop_suffix {hasAp : Bool} :
    (dumpPrefixLoop max withdraw hasAp ps buf).2 <:+ ps := by
  induction ps generalizing buf with
  | nil => exact List.suffix_refl _
  | cons p ps ih =>
    unfold dumpPrefixLoop
    split
    · exact List.suffix_refl _
    · exact ih.trans (List.suffix_cons p ps)

theorem dumpPrefixLoop_mem {hasAp : Bool} (hp : p ∈ ps) (hlong : TooLong p.pt) :
    p ∈ (dumpPrefixLoop max withdraw hasAp ps buf).2 := by
  induction ps generalizing buf with
  | nil => cases hp
  | cons p' ps ih =>
    unfold dumpPrefixLoop
    split
    · exact hp
    · next buf' hwrite =>
      rcases List.mem_cons.mp hp with rfl | hp
      · rw [hlong.ptWritebuf] at hwrite
        cases hwrite
      · exact ih hp

/-- What is left of a queue: at least the first prefix is gone, but none that is too long. -/
theorem upDumpPrefix_rest (h : upDumpPrefix max peer withdraw ps buf = some (buf', rest)) :
    rest <:+ ps ∧ rest.length < ps.length ∧ ∀ p ∈ ps, TooLong p.pt → p ∈ rest := by
  cases ps with
  | nil => cases h
  | cons p ps =>
    obtain ⟨b, hwrite, h⟩ := Option.map_eq_some_iff.mp h
    obtain rfl : (dumpPrefixLoop max withdraw (peer.addPathSend p.pt.aid) ps b).2 = rest := by
      rw [h]
    have hsuf := @dumpPrefixLoop_suffix max b withdraw ps (peer.addPathSend p.pt.aid)
    refine ⟨hsuf.trans (List.suffix_cons p ps), ?_, fun x hx hlong => ?_⟩
    · exact Nat.lt_succ_of_le hsuf.length_le
    · rcases List.mem_cons.mp hx with rfl | hx
      · rw [hlong.ptWritebuf] at hwrite
        cases hwrite
      · exact dumpPrefixLoop_mem hx hlong

/-- A prefix that is too long keeps the queue as it is. -/
theorem TooLong.upDumpPrefix (h : TooLong p.pt) (max : ℕ) (peer : MsgPeer) (withdraw : Bool)
    (ps : List PendPrefix) (buf : List UInt8) :
    upDumpPrefix max peer withdraw (p :: ps) buf = none := by
  rw [Msg.upDumpPrefix, h.ptWritebuf]
  rfl

/-- The first prefix is written as a withdraw behind the start of a message. -/
theorem ptWritebuf_first (hp : Admitted p.pt) (hlong : ¬TooLong p.pt) (h : 4077 ≤ max)
    (hbuf : buf.length ≤ 11) (hasAp : Bool) :
    ∃ nlri, ptWritebuf buf max p.pt true hasAp p.pathIdTx = some (buf ++ nlri) ∧
      (buf ++ nlri).length + 2 ≤ max := by
  obtain ⟨nlri, hwrite, hlen⟩ := hp.writeEntry hlong
  have hid : (if hasAp then ibufAddN32 p.pathIdTx else []).length ≤ 4 := by
    cases hasAp <;> simp [ibufAddN32]
  have hspace : buf.length + ((if hasAp then ibufAddN32 p.pathIdTx else []) ++ nlri).length +
      reserved true ≤ max := by
    rw [List.length_append]
    unfold withdrawSpace at hlen
    simp only [reserved, if_true]
    omega
  refine ⟨_, ptWritebuf_eq hwrite hspace, ?_⟩
  rw [List.length_append]
  exact hspace

/-- What `up_dump_withdraws` leaves of the queue. -/
theorem upDumpWithdraws_rest (peer : MsgPeer) (aid : Aid) (ps : List PendPrefix) :
    (upDumpWithdraws peer aid ps).2 <:+ ps ∧
      (∀ p ∈ ps, TooLong p.pt → p ∈ (upDumpWithdraws peer aid ps).2) ∧
      ∀ p rest, ps = p :: rest → Admitted p.pt → ¬TooLong p.pt →
        (upDumpWithdraws peer aid ps).2.length < ps.length := by
  have hstart := withdrawStart_eq (le_maxBody peer) aid
  have hbuf := (length_withdrawHead aid).2
  unfold upDumpWithdraws
  simp only [hstart, Option.bind_some]
  cases hdump : upDumpPrefix (maxBody peer) peer true ps (withdrawHead aid) with
  | none =>
    refine ⟨List.suffix_refl _, fun _ hp _ => hp, ?_⟩
    rintro p rest rfl hp hlong
    -- the first prefix fits
    obtain ⟨nlri, hwrite, -⟩ :=
      ptWritebuf_first hp hlong (le_maxBody peer) hbuf (peer.addPathSend p.pt.aid)
    rw [upDumpPrefix, hwrite] at hdump
    cases hdump
  | some x =>
    obtain ⟨hsuf, hlen, hmem⟩ := upDumpPrefix_rest hdump
    exact ⟨hsuf, hmem, fun _ _ _ _ _ => hlen⟩

/-- An update that can not be written is replaced by a withdraw. -/
theorem upDumpWithdrawOne_isSome (hp : Admitted p.pt) (hlong : ¬TooLong p.pt) :
    (upDumpWithdrawOne peer p).isSome = true := by
  have hstart := withdrawStart_eq (le_maxBody peer) p.pt.aid
  obtain ⟨htwo, hbuf⟩ := length_withdrawHead p.pt.aid
  obtain ⟨nlri, hwrite, hlen⟩ :=
    ptWritebuf_first hp hlong (le_maxBody peer) hbuf (peer.addPathSend p.pt.aid)
  unfold upDumpWithdrawOne
  simp only [hstart, hwrite, Option.bind_eq_bind, Option.bind_some]
  refine withdrawEnd_isSome hlen ?_ _
  rw [List.length_append]
  omega

/-- A withdraw of a prefix that is too long can not be written either. -/
theorem TooLong.upDumpWithdrawOne (h : TooLong p.pt) (peer : MsgPeer) :
    upDumpWithdrawOne peer p = none := by
  unfold Msg.upDumpWithdrawOne
  simp only [withdrawStart_eq (le_maxBody peer), h.ptWritebuf, Option.bind_eq_bind,
    Option.bind_some, Option.bind_none]

/-- The prefixes of an update that is written are written by `up_dump_prefix`. -/
theorem dumpUpdate_dump (h : dumpUpdate peer aid pa = some (buf, rest)) :
    ∃ b b', upDumpPrefix (maxBody peer) peer false pa.prefixes b = some (b', rest) := by
  unfold dumpUpdate at h
  obtain ⟨b₁, -, h⟩ := Option.bind_eq_some_iff.mp h
  obtain ⟨b₂, -, h⟩ := Option.bind_eq_some_iff.mp h
  obtain ⟨b₃, -, h⟩ := Option.bind_eq_some_iff.mp h
  split at h
  · obtain ⟨⟨b₄, r⟩, hreach, h⟩ := Option.bind_eq_some_iff.mp h
    cases h
    -- the prefixes are the last part of the attribute
    unfold upGenerateMpReach at hreach
    simp only [Option.bind_eq_bind, Option.bind_eq_some_iff] at hreach
    obtain ⟨_, -, _, -, _, -, _, -, _, -, _, -, _, -, _, -, _, -, ⟨_, r'⟩, hdump, heq⟩ := hreach
    cases heq
    exact ⟨_, _, hdump⟩
  · exact ⟨_, _, h⟩

/-- The prefixes in the groups of a queue. -/
def allPrefixes (us : List (Option PendAttr)) : List PendPrefix :=
  us.flatMap fun u => u.elim [] PendAttr.prefixes

theorem allPrefixes_done (attrs : MsgAttrs) (rest : List PendPrefix)
    (us : List (Option PendAttr)) :
    allPrefixes (pendAttrDone attrs rest us) = rest ++ allPrefixes us := by
  cases rest <;> rfl

theorem length_pendAttrDone (attrs : MsgAttrs) (rest : List PendPrefix)
    (us : List (Option PendAttr)) : (pendAttrDone attrs rest us).length ≤ us.length + 1 := by
  cases rest with
  | nil => exact Nat.le_succ _
  | cons p ps => exact Nat.le_refl _

/-- The prefixes of the first group are sent, its first prefix is withdrawn, or nothing
    happens. -/
theorem upDumpUpdate_cases (peer : MsgPeer) (aid : Aid) (pa : PendAttr)
    (us : List (Option PendAttr)) :
    (∃ buf rest, dumpUpdate peer aid pa = some (buf, rest) ∧
        upDumpUpdate peer aid (some pa :: us) = (some buf, pendAttrDone pa.attrs rest us)) ∨
      dumpUpdate peer aid pa = none ∧
        ((∃ buf, upDumpWithdrawOne peer pa.head = some buf ∧
            upDumpUpdate peer aid (some pa :: us) = (some buf, pendAttrDone pa.attrs pa.tail us)) ∨
          upDumpWithdrawOne peer pa.head = none ∧
            upDumpUpdate peer aid (some pa :: us) = (none, some pa :: us)) := by
  unfold upDumpUpdate
  dsimp only
  generalize dumpUpdate peer aid pa = d
  generalize upDumpWithdrawOne peer pa.head = w
  rcases d with _ | ⟨buf, rest⟩
  · rcases w with _ | buf
    · exact Or.inr ⟨rfl, Or.inr ⟨rfl, rfl⟩⟩
    · exact Or.inr ⟨rfl, Or.inl ⟨buf, rfl, rfl⟩⟩
  · exact Or.inl ⟨buf, rest, rfl, rfl⟩

/-- What `up_dump_update` leaves of the queue. -/
theorem upDumpUpdate_rest (peer : MsgPeer) (aid : Aid) (pa : PendAttr)
    (us : List (Option PendAttr)) :
    (∀ p ∈ allPrefixes (upDumpUpdate peer aid (some pa :: us)).2, p ∈ allPrefixes (some pa :: us)) ∧
      (upDumpUpdate peer aid (some pa :: us)).2.length ≤ us.length + 1 ∧
      (∀ p ∈ allPrefixes (some pa :: us), TooLong p.pt →
        p ∈ allPrefixes (upDumpUpdate peer aid (some pa :: us)).2) ∧
      (Admitted pa.head.pt → ¬TooLong pa.head.pt →
        (allPrefixes (upDumpUpdate peer aid (some pa :: us)).2).length <
          (allPrefixes (some pa :: us)).length) := by
  have hall : allPrefixes (some pa :: us) = pa.prefixes ++ allPrefixes us := rfl
  rcases upDumpUpdate_cases peer aid pa us with ⟨buf, rest, hdump, heq⟩ | ⟨-, hcase⟩
  · obtain ⟨b, b', hdump⟩ := dumpUpdate_dump hdump
    obtain ⟨hsuf, hlen, hmem⟩ := upDumpPrefix_rest hdump
    rw [heq, allPrefixes_done, hall, List.length_append, List.length_append]
    refine ⟨fun p hp => ?_, length_pendAttrDone _ _ _, fun p hp hlong => ?_,
      fun _ _ => Nat.add_lt_add_right hlen _⟩
    · rcases List.mem_append.mp hp with hp | hp
      · exact List.mem_append_left _ (hsuf.subset hp)
      · exact List.mem_append_right _ hp
    · rcases List.mem_append.mp hp with hp | hp
      · exact List.mem_append_left _ (hmem p hp hlong)
      · exact List.mem_append_right _ hp
  rcases hcase with ⟨buf, hone, heq⟩ | ⟨hone, heq⟩
  · rw [heq, allPrefixes_done, hall, PendAttr.prefixes, List.cons_append]
    refine ⟨fun p hp => List.mem_cons_of_mem _ hp, length_pendAttrDone _ _ _,
      fun p hp hlong => ?_, fun _ _ => Nat.lt_succ_self _⟩
    rcases List.mem_cons.mp hp with rfl | hp
    · -- its withdraw was not written
      rw [hlong.upDumpWithdrawOne peer] at hone
      cases hone
    · exact hp
  · rw [heq]
    refine ⟨fun _ h => h, Nat.le_refl _, fun _ h _ => h, fun hp hlong => ?_⟩
    have hsome : (upDumpWithdrawOne peer pa.head).isSome = true :=
      upDumpWithdrawOne_isSome hp hlong
    rw [hone] at hsome
    cases hsome

theorem TooLong.upDumpWithdraws (h : TooLong p.pt) (peer : MsgPeer) (aid : Aid)
    (ps : List PendPrefix) : upDumpWithdraws peer aid (p :: ps) = (none, p :: ps) := by
  unfold Msg.upDumpWithdraws
  simp only [withdrawStart_eq (le_maxBody peer), Option.bind_some, h.upDumpPrefix]

theorem TooLong.upDumpUpdate (h : TooLong pa.head.pt) (peer : MsgPeer) (aid : Aid)
    (us : List (Option PendAttr)) :
    upDumpUpdate peer aid (some pa :: us) = (none, some pa :: us) := by
  have hdump : dumpUpdate peer aid pa = none := by
    cases hdump : dumpUpdate peer aid pa with
    | none => rfl
    | some x =>
      obtain ⟨b, b', hx⟩ := dumpUpdate_dump hdump
      rw [PendAttr.prefixes, h.upDumpPrefix] at hx
      cases hx
  unfold Msg.upDumpUpdate
  simp only [hdump, h.upDumpWithdrawOne]

/-! ## Rounds -/

/-- A round of `rde_update_queue_runner` for the withdraws of a peer. -/
def withdrawRound (peer : MsgPeer) (aid : Aid) (ps : List PendPrefix) : List PendPrefix :=
  (upDumpWithdraws peer aid ps).2

/-- A round of `rde_update_queue_runner` for the updates of a peer. -/
def updateRound (peer : MsgPeer) (aid : Aid) (us : List (Option PendAttr)) :
    List (Option PendAttr) :=
  match us with
  -- up_is_eor
  | none :: us => us
  | us => (upDumpUpdate peer aid us).2

/-- The withdraws of a peer drain if and only if none of them is too long. -/
theorem withdraws_drain (hps : ∀ p ∈ ps, Admitted p.pt) :
    (∃ n, (withdrawRound peer aid)^[n] ps = []) ↔ ∀ p ∈ ps, ¬TooLong p.pt := by
  constructor
  · rintro ⟨n, hn⟩ p hp hlong
    have hstay : p ∈ (withdrawRound peer aid)^[n] ps :=
      iterate_invariant (P := fun ps => p ∈ ps)
        (fun ps hp => (upDumpWithdraws_rest peer aid ps).2.1 p hp hlong) hp n
    rw [hn] at hstay
    cases hstay
  · intro hlong
    refine exists_iterate_eq_nil _ List.length
      (fun ps => ∀ p ∈ ps, Admitted p.pt ∧ ¬TooLong p.pt) (fun l hl p hp => ?_)
      (fun l hl hne => ?_) fun p hp => ⟨hps p hp, hlong p hp⟩
    · exact hl p ((upDumpWithdraws_rest peer aid l).1.subset hp)
    · obtain ⟨p, rest, rfl⟩ := List.exists_cons_of_ne_nil hne
      obtain ⟨hp, hlong⟩ := hl p List.mem_cons_self
      exact (upDumpWithdraws_rest peer aid _).2.2 p rest rfl hp hlong

/-- A round takes an End-of-RIB marker or a prefix off the queue. -/
theorem updateRound_lt (hus : ∀ p ∈ allPrefixes us, Admitted p.pt ∧ ¬TooLong p.pt)
    (hne : us ≠ []) :
    (updateRound peer aid us).length + (allPrefixes (updateRound peer aid us)).length <
      us.length + (allPrefixes us).length := by
  obtain ⟨u, rest, rfl⟩ := List.exists_cons_of_ne_nil hne
  cases u with
  | none =>
    show rest.length + (allPrefixes rest).length < rest.length + 1 + (allPrefixes rest).length
    omega
  | some pa =>
    obtain ⟨hp, hlong⟩ := hus pa.head (List.mem_append_left _ List.mem_cons_self)
    obtain ⟨-, hlen, -, hlt⟩ := upDumpUpdate_rest peer aid pa rest
    exact Nat.add_lt_add_of_le_of_lt hlen (hlt hp hlong)

theorem updateRound_mem (peer : MsgPeer) (aid : Aid) (us : List (Option PendAttr)) :
    (∀ p ∈ allPrefixes (updateRound peer aid us), p ∈ allPrefixes us) ∧
      ∀ p ∈ allPrefixes us, TooLong p.pt → p ∈ allPrefixes (updateRound peer aid us) := by
  cases us with
  | nil => exact ⟨fun _ h => h, fun _ h _ => h⟩
  | cons u us =>
    cases u with
    | none => exact ⟨fun _ h => h, fun _ h _ => h⟩
    | some pa =>
      obtain ⟨hsub, -, hmem, -⟩ := upDumpUpdate_rest peer aid pa us
      exact ⟨hsub, hmem⟩

/-- The updates of a peer drain if and only if none of them is too long. -/
theorem updates_drain (hus : ∀ p ∈ allPrefixes us, Admitted p.pt) :
    (∃ n, (updateRound peer aid)^[n] us = []) ↔ ∀ p ∈ allPrefixes us, ¬TooLong p.pt := by
  constructor
  · rintro ⟨n, hn⟩ p hp hlong
    have hstay : p ∈ allPrefixes ((updateRound peer aid)^[n] us) :=
      iterate_invariant (P := fun us => p ∈ allPrefixes us)
        (fun us hp => (updateRound_mem peer aid us).2 p hp hlong) hp n
    rw [hn] at hstay
    cases hstay
  · intro hlong
    exact exists_iterate_eq_nil _ (fun us => us.length + (allPrefixes us).length)
      (fun us => ∀ p ∈ allPrefixes us, Admitted p.pt ∧ ¬TooLong p.pt)
      (fun l hl p hp => hl p ((updateRound_mem peer aid l).1 p hp))
      (fun l hl hne => updateRound_lt hl hne) fun p hp => ⟨hus p hp, hlong p hp⟩

/-- For every peer and family: a message takes a prefix off its queue if and only if the first
    one is not too long, and the queues drain if and only if none is too long. -/
theorem up_dump_progress (peer : MsgPeer) (aid : Aid) :
    (∀ p ps, Admitted p.pt → ((upDumpWithdraws peer aid (p :: ps)).2.length < (p :: ps).length ↔
      ¬TooLong p.pt)) ∧
    (∀ pa us, Admitted pa.head.pt →
      ((allPrefixes (upDumpUpdate peer aid (some pa :: us)).2).length <
        (allPrefixes (some pa :: us)).length ↔ ¬TooLong pa.head.pt)) ∧
    (∀ ps : List PendPrefix, (∀ p ∈ ps, Admitted p.pt) →
      ((∃ n, (withdrawRound peer aid)^[n] ps = []) ↔ ∀ p ∈ ps, ¬TooLong p.pt)) ∧
    ∀ us, (∀ p ∈ allPrefixes us, Admitted p.pt) →
      ((∃ n, (updateRound peer aid)^[n] us = []) ↔ ∀ p ∈ allPrefixes us, ¬TooLong p.pt) := by
  refine ⟨fun p ps hp => ⟨fun hlt hlong => ?_, fun hlong => ?_⟩,
    fun pa us hp => ⟨fun hlt hlong => ?_, fun hlong => ?_⟩, fun _ => withdraws_drain,
    fun _ => updates_drain⟩
  · rw [hlong.upDumpWithdraws] at hlt
    exact lt_irrefl _ hlt
  · exact (upDumpWithdraws_rest peer aid _).2.2 p ps rfl hp hlong
  · rw [hlong.upDumpUpdate] at hlt
    exact lt_irrefl _ hlt
  · exact (upDumpUpdate_rest peer aid pa us).2.2.2 hp hlong

/-- A flowspec NLRI with 128 ports. -/
def longFlow : List UInt8 := 4 :: ((List.replicate 127 [0x01, 80]).flatten ++ [0x81, 80])

/-- A withdraw of a flowspec NLRI of 257 bytes stays at the head of its queue. -/
theorem up_dump_progress_fails_flowspec :
    ¬∀ (peer : MsgPeer) (aid : Aid) (p : PendPrefix) (ps : List PendPrefix),
      Admitted p.pt → p.pt.aid = aid →
        (upDumpWithdraws peer aid (p :: ps)).2.length < (p :: ps).length := by
  intro h
  have hvalid : flowspecValid longFlow false = true := by decide +kernel
  have hlong : TooLong (.flow false longFlow) := by decide +kernel
  have hlt := h {} .flowspec4 ⟨.flow false longFlow, 0⟩ [] (Admitted.flow hvalid) rfl
  have hstay := hlong.upDumpWithdraws (p := ⟨.flow false longFlow, 0⟩) {} .flowspec4 []
  rw [hstay] at hlt
  exact lt_irrefl _ hlt

/-- The queues of a peer with a prefix to withdraw and two to announce. -/
theorem up_dump_progress_sample :
    let p : PendPrefix := ⟨ptFill (.inet ⟨[10, 0, 0, 0], rfl⟩) 8, 0⟩
    let q : PendPrefix := ⟨ptFill (.inet ⟨[10, 1, 0, 0], rfl⟩) 16, 0⟩
    let us : List (Option PendAttr) := [some ⟨{ aspath := {} }, p, [q]⟩, none]
    (∃ n, (withdrawRound {} .inet)^[n] [p] = []) ∧ ∃ n, (updateRound {} .inet)^[n] us = [] := by
  intro p q us
  obtain ⟨-, -, hwithdraws, hupdates⟩ := up_dump_progress {} .inet
  have hp : Admitted p.pt := Admitted.network4 _ _
  have hq : Admitted q.pt := Admitted.network4 _ _
  have hlong : ¬TooLong p.pt ∧ ¬TooLong q.pt := by decide
  constructor
  · refine (hwithdraws [p] fun x hx => ?_).mpr fun x hx => ?_
    · rw [List.mem_singleton.mp hx]
      exact hp
    · rw [List.mem_singleton.mp hx]
      exact hlong.1
  · have hus : allPrefixes us = [p, q] := rfl
    refine (hupdates us fun x hx => ?_).mpr fun x hx => ?_
    · rw [hus] at hx
      rcases List.mem_cons.mp hx with rfl | hx
      · exact hp
      · rw [List.mem_singleton.mp hx]
        exact hq
    · rw [hus] at hx
      rcases List.mem_cons.mp hx with rfl | hx
      · exact hlong.1
      · rw [List.mem_singleton.mp hx]
        exact hlong.2

end Bgpd.Rde.Msg
