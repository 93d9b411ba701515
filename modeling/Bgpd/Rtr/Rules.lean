import Bgpd.Rtr.Engine

/-!
# Rules for Invariants of a Session

A property of the engine while it handles a session is an invariant if a few kinds of changes keep
it: changes of what no invariant is about, data during an exchange, a session id that is learnt, an
error, and the events of `rtr_fsm`. That the parser and the other functions do no more than that is
shown once here.

## Main results

- `Closed`: what keeps a property
- `Closed.rtrProcessMsg`: PDUs of any type and content
- `Closed.rtrOpen`, `Closed.rtrTimer`, `Closed.rtrWrite`, `Closed.rtrRead`, `Closed.rtrFree`
-/

namespace Bgpd.Rtr

open Lib

/-- Nothing is changed but queues, timers, versions and what is configured. -/
structure Quiet (rs rs' : Session) : Prop where
  id : rs'.id = rs.id
  data : rs'.toRpkiData = rs.toRpkiData
  serial : rs'.serial = rs.serial
  sessionId : rs'.sessionId = rs.sessionId
  connOpen : rs'.connOpen = rs.connOpen
  activeLock : rs'.activeLock = rs.activeLock
  state : rs'.state = rs.state
  complete : rs'.complete = rs.complete
  /-- PDUs are only read from a connection. -/
  rbufs : rs'.rbufs ≠ [] → rs.rbufs ≠ [] ∨ rs.connOpen = true

theorem Quiet.refl (rs : Session) : Quiet rs rs := ⟨rfl, rfl, rfl, rfl, rfl, rfl, rfl, rfl, Or.inl⟩

/-- The states in which an event is raised. The start of an exchange has a rule of its own. -/
def Guard (rs : Session) : Event → Prop
  | .cacheResponse => False
  | .cacheReset | .serialNotify => rs.state = .established
  | .endOfData => rs.state = .exchange
  | .negotiationDone => rs.state = .negotiation ∧ rs.connOpen = true
  | .noData => rs.connOpen = true
  | .conOpen => (rs.state = .closed ∨ rs.state = .negotiation) ∧ rs.connOpen = true
  | _ => True

/-- There is no `fatalx`, and the property holds afterwards. -/
def Sound (P : Cur → Prop) (r : Except RtrFatal Cur) : Prop := ∃ c, r = .ok c ∧ P c

theorem Sound.ok {P : Cur → Prop} {c : Cur} (h : P c) : Sound P (.ok c) := ⟨c, rfl, h⟩

theorem Sound.bind {P Q : Cur → Prop} {r : Except RtrFatal Cur} {f : Cur → Except RtrFatal Cur}
    (h : Sound P r) (hf : ∀ c, P c → Sound Q (f c)) : Sound Q (r >>= f) := by
  obtain ⟨c, rfl, hc⟩ := h
  exact hf c hc

/-- What keeps a property of the engine. Events only happen if `ok` allows them; learning a session
    id counts as the event of the PDU that carried it. -/
structure Closed (ok : Session → Event → Prop) (P : Cur → Prop) : Prop where
  quiet : ∀ {c : Cur} {rs : Session} {m : List MainMsg}, P c → Quiet c.rs rs →
    P { c with rs := rs, main := m }
  transfer : ∀ {c : Cur} (d : RpkiData) (serial : ℕ), P c → c.rs.state = .exchange →
    P (c.modify fun rs => { rs with toRpkiData := d, serial := serial })
  learn : ∀ {c : Cur} (sid : ℕ), P c → c.rs.state ≠ .negotiation → c.rs.sessionId = none →
    ok c.rs .serialNotify → P (c.modify fun rs => { rs with sessionId := some sid })
  error : ∀ {c : Cur} (err : RtrError) (pdu : List UInt8), P c → P (c.sendError err pdu)
  reset : ∀ {c : Cur}, P c → P (c.modify Session.resetCache)
  conn : ∀ {c : Cur}, P c → c.rs.state = .closed ∨ c.rs.state = .negotiation →
    P (c.modify fun rs => { rs with connOpen := true })
  response : ∀ {c : Cur} (pdu : Pdu), P c → c.rs.connOpen = true → c.rs.state = .established →
    Sound P (rtrFsm (c.modify (·.learnId pdu)) .cacheResponse)
  fsm : ∀ {c : Cur} {e : Event}, P c → Guard c.rs e → ok c.rs e → Sound P (rtrFsm c e)

/-- Events that are allowed do not depend on what is changed quietly. Most events are always
    allowed. -/
structure Allows (ok : Session → Event → Prop) : Prop where
  quiet : ∀ {rs rs' : Session} {event : Event}, Quiet rs rs' → ok rs event → ok rs' event
  always : ∀ {rs : Session} {event : Event}, event ≠ .noData → event ≠ .timerActive →
    event ≠ .serialNotify → ok rs event
  learnt : ∀ {rs : Session}, rs.sessionId.isSome → ok rs .serialNotify

variable {ok : Session → Event → Prop} {P : Cur → Prop} {c : Cur} {pdu : Pdu}

namespace Closed

theorem quietly (h : Closed ok P) (hP : P c) {r : Session} (hq : Quiet c.rs r) :
    P { c with rs := r } := h.quiet (m := c.main) hP hq

theorem reject (h : Closed ok P) (hP : P c) (err : RtrError) (pdu : Pdu) :
    P (c.reject err pdu) := h.error err pdu.bytes hP

/-! ## Closing -/

theorem closeConn_rs (c : Cur) : c.closeConn.rs.activeLock = c.rs.activeLock ∧
    c.closeConn.rs.connOpen = false ∧
    (c.closeConn.rs.state = .closed ∨ c.closeConn.rs.state = .negotiation) := by
  unfold Cur.closeConn
  have hstate : ∀ s : State, (if s = .negotiation then State.negotiation else .closed) = .closed ∨
      (if s = .negotiation then State.negotiation else .closed) = .negotiation := by
    intro s
    split_ifs
    · exact Or.inr rfl
    · exact Or.inl rfl
  dsimp only
  split_ifs with hopen
  · exact ⟨rfl, rfl, hstate c.rs.state⟩
  · exact ⟨rfl, (Bool.not_eq_true _).mp hopen, hstate c.rs.state⟩

/-- A session that was closed has no lock and no connection. -/
theorem conClose_rs {c c' : Cur} {reset : Bool} (h : c.conClose reset = .ok c') :
    c'.rs.activeLock = false ∧ c'.rs.connOpen = false ∧
      (c'.rs.state = .closed ∨ c'.rs.state = .negotiation) := by
  unfold Cur.conClose at h
  split_ifs at h with hreset
  · cases hrel : (c.modify Session.resetCache).semRelease with
    | error e =>
      rw [hrel] at h
      cases h
    | ok c₁ =>
      rw [hrel] at h
      obtain rfl := Except.ok.inj h
      have hrs := closeConn_rs (c₁.modify fun rs => { rs with activeLock := false }).recalc
      exact ⟨hrs.1, hrs.2⟩
  · obtain rfl := Except.ok.inj h
    have hrs := closeConn_rs c
    refine ⟨hrs.1.trans ?_, hrs.2⟩
    rw [Bool.or_eq_true, not_or, Bool.not_eq_true, Bool.not_eq_true] at hreset
    exact hreset.2

theorem closeConn_frame (c : Cur) :
    c.closeConn.before = c.before ∧ c.closeConn.after = c.after := by
  unfold Cur.closeConn
  dsimp only
  split_ifs
  · exact ⟨rfl, rfl⟩
  · exact ⟨rfl, rfl⟩

/-- The other sessions stay in the list. -/
theorem conClose_frame {c c' : Cur} {reset : Bool} (h : c.conClose reset = .ok c') :
    c'.before = c.before ∧ c'.after = c.after := by
  unfold Cur.conClose at h
  split_ifs at h
  · cases hrel : (c.modify Session.resetCache).semRelease with
    | error e =>
      rw [hrel] at h
      cases h
    | ok c₁ =>
      have hframe : c₁.before = c.before ∧ c₁.after = c.after := by
        unfold Cur.semRelease at hrel
        dsimp only at hrel
        split_ifs at hrel
        obtain rfl := Except.ok.inj hrel
        exact ⟨rfl, rfl⟩
      rw [hrel] at h
      obtain rfl := Except.ok.inj h
      obtain ⟨hbefore, hafter⟩ :=
        closeConn_frame (c₁.modify fun rs => { rs with activeLock := false }).recalc
      exact ⟨hbefore.trans hframe.1, hafter.trans hframe.2⟩
  · obtain rfl := Except.ok.inj h
    exact closeConn_frame c

/-! ## PDUs -/

theorem downgrade_quiet (rs : Session) (pdu : Pdu) : Quiet rs (rs.downgrade pdu) := by
  unfold Session.downgrade
  split_ifs
  · exact ⟨rfl, rfl, rfl, rfl, rfl, rfl, rfl, rfl, Or.inl⟩
  · exact Quiet.refl rs

/-- Versions are changed, and a negotiation ends with an answer. -/
theorem checkVersion_quiet (rs : Session) (pdu : Pdu) :
    Quiet rs (checkVersion rs pdu).1 ∧ ((checkVersion rs pdu).2 = .ok true →
      rs.state = .negotiation ∧ pdu.type ≠ .errorReport ∧ pdu.type ≠ .serialNotify) := by
  unfold checkVersion
  by_cases hneg : rs.state = .negotiation
  · rw [if_pos hneg]
    cases htype : pdu.type
    case cacheResponse | cacheReset =>
      dsimp only
      split
      · exact ⟨Quiet.refl rs, fun h => nomatch h⟩
      · exact ⟨downgrade_quiet rs pdu, fun _ => ⟨hneg, by simp, by simp⟩⟩
    case errorReport =>
      dsimp only
      refine ⟨?_, fun h => nomatch h⟩
      split
      · exact downgrade_quiet rs pdu
      · exact Quiet.refl rs
    all_goals exact ⟨Quiet.refl rs, fun h => nomatch h⟩
  · rw [if_neg hneg]
    split
    · exact ⟨Quiet.refl rs, fun h => nomatch h⟩
    · exact ⟨Quiet.refl rs, fun h => nomatch h⟩

/-- After the header the session has not changed much, unless a negotiation is done. -/
theorem rtrParseHeader (h : Closed ok P) (ha : Allows ok) (hP : P c)
    (hopen : c.rs.connOpen = true) (pdu : Pdu) :
    P (rtrParseHeader c pdu).1 ∧ ((rtrParseHeader c pdu).2 = true →
      (rtrParseHeader c pdu).1.rs.connOpen = true ∧
      (pdu.type = .errorReport ∨ pdu.type = .serialNotify →
        Quiet c.rs (rtrParseHeader c pdu).1.rs)) := by
  obtain ⟨hq, hneg⟩ := checkVersion_quiet c.rs pdu
  unfold Rtr.rtrParseHeader
  generalize checkVersion c.rs pdu = r at *
  obtain ⟨rs, err | negDone⟩ := r
  · exact ⟨h.reject hP err pdu, fun h => nomatch h⟩
  · dsimp only at hq hneg ⊢
    have hP' : P { c with rs := rs } := h.quietly hP hq
    cases checkLength rs.version pdu with
    | some err => exact ⟨h.reject hP' err pdu, fun h => nomatch h⟩
    | none =>
      dsimp only
      cases negDone with
      | false => exact ⟨hP', fun _ => ⟨hq.connOpen.trans hopen, fun _ => hq⟩⟩
      | true =>
        obtain ⟨hstate, herr, hnotify⟩ := hneg rfl
        refine ⟨?_, fun _ => ⟨hq.connOpen.trans hopen,
          fun htype => absurd htype (not_or.mpr ⟨herr, hnotify⟩)⟩⟩
        obtain ⟨c', hc', hP''⟩ := h.fsm (e := .negotiationDone) hP'
          ⟨hq.state.trans hstate, hq.connOpen.trans hopen⟩ (ha.always (by simp) (by simp) (by simp))
        obtain rfl := Except.ok.inj hc'
        exact hP''

theorem learnId_some {rs : Session} (hsid : rs.sessionId.isSome) (pdu : Pdu) :
    rs.learnId pdu = rs := if_neg (by simpa [Option.isSome_iff_ne_none] using hsid)

theorem learnId_none {rs : Session} (hsid : rs.sessionId = none) (pdu : Pdu) :
    rs.learnId pdu = { rs with sessionId := some pdu.sessionId.toNat } := if_pos (by rw [hsid]; rfl)

theorem learnId_isSome (rs : Session) (pdu : Pdu) : (rs.learnId pdu).sessionId.isSome := by
  cases hsid : rs.sessionId with
  | none =>
    rw [learnId_none hsid]
    rfl
  | some sid =>
    rw [learnId_some (by rw [hsid]; rfl), hsid]
    rfl

theorem learnId_state (rs : Session) (pdu : Pdu) : (rs.learnId pdu).state = rs.state := by
  unfold Session.learnId
  split_ifs
  · rfl
  · rfl

theorem learnId (h : Closed ok P) (hP : P c) (hstate : c.rs.state ≠ .negotiation)
    (hok : c.rs.sessionId = none → ok c.rs .serialNotify) : P (c.modify (·.learnId pdu)) := by
  cases hsid : c.rs.sessionId with
  | none =>
    have hP' := h.learn pdu.sessionId.toNat hP hstate hsid (hok hsid)
    unfold Cur.modify at hP' ⊢
    dsimp only
    rwa [learnId_none hsid]
  | some sid =>
    unfold Cur.modify
    dsimp only
    rwa [learnId_some (by rw [hsid]; rfl)]

theorem rtrParseNotify (h : Closed ok P) (ha : Allows ok) (hP : P c)
    (hok : c.rs.state ≠ .negotiation → c.rs.sessionId = none → ok c.rs .serialNotify) :
    Sound P (rtrParseNotify c pdu) := by
  unfold Rtr.rtrParseNotify
  split_ifs with hneg
  · exact Sound.ok hP
  · have hP' : P (c.modify (·.learnId pdu)) := h.learnId hP hneg (hok hneg)
    dsimp only
    split_ifs with hsid hest
    · exact Sound.ok (h.reject hP' _ pdu)
    · exact Sound.ok hP'
    · exact h.fsm hP' (not_not.mp hest) (ha.learnt (learnId_isSome c.rs pdu))

/-- A session id that is learnt is forgotten with an error. -/
theorem reject_learnId (c : Cur) (pdu : Pdu) (err : RtrError) :
    (c.modify (·.learnId pdu)).reject err pdu = c.reject err pdu := by
  cases hsid : c.rs.sessionId with
  | none =>
    unfold Cur.modify
    dsimp only
    rw [learnId_none hsid]
    rfl
  | some sid =>
    unfold Cur.modify
    dsimp only
    rw [learnId_some (by rw [hsid]; rfl)]

theorem rtrParseCacheResponse (h : Closed ok P) (hP : P c) (hopen : c.rs.connOpen = true) :
    Sound P (rtrParseCacheResponse c pdu) := by
  unfold Rtr.rtrParseCacheResponse
  dsimp only
  rw [reject_learnId]
  split_ifs with hsid hest
  · exact Sound.ok (h.reject hP _ pdu)
  · exact Sound.ok (h.reject hP _ pdu)
  · exact h.response pdu hP hopen ((learnId_state c.rs pdu).symm.trans (not_not.mp hest))

theorem rtrParseCacheReset (h : Closed ok P) (ha : Allows ok) (hP : P c) :
    Sound P (rtrParseCacheReset c pdu) := by
  unfold Rtr.rtrParseCacheReset
  split_ifs with hsid hest
  · exact Sound.ok (h.reject hP _ pdu)
  · exact Sound.ok (h.reject hP _ pdu)
  · exact h.fsm hP (not_not.mp hest) (ha.always (by simp) (by simp) (by simp))

theorem rtrParsePrefix (h : Closed ok P) (hP : P c) (bits : ℕ)
    (get : List UInt8 → Option (ℕ × Rpki.AnyRoa)) : P (rtrParsePrefix bits get c pdu) := by
  unfold Rtr.rtrParsePrefix
  cases get pdu.body with
  | none => exact h.reject hP _ pdu
  | some x =>
    dsimp only
    split_ifs with hsid hstate hlen
    · exact h.reject hP _ pdu
    · exact h.reject hP _ pdu
    · exact h.reject hP _ pdu
    · cases roaChange (flagAnnounce x.1) x.2 c.rs.roaSet with
      | error err => exact h.reject hP err pdu
      | ok set => exact h.transfer ⟨set, c.rs.aspa⟩ c.rs.serial hP (not_not.mp hstate)

theorem rtrParseAspa (h : Closed ok P) (hP : P c) : P (rtrParseAspa c pdu) := by
  unfold Rtr.rtrParseAspa
  cases Rde.Nlri.ibufGetN32 pdu.body with
  | none => exact h.reject hP _ pdu
  | some x =>
    dsimp only
    split_ifs with hempty hfull hstate hmany
    · exact h.reject hP _ pdu
    · exact h.reject hP _ pdu
    · exact h.reject hP _ pdu
    · exact h.transfer ⟨c.rs.roaSet, rbRemove aspaCmp ⟨x.1.toNat, []⟩ c.rs.aspa⟩ c.rs.serial hP
        (not_not.mp hstate)
    · cases getSpas (x.2.length / 4) x.2 with
      | none => exact h.reject hP _ pdu
      | some tas =>
        dsimp only
        split
        · exact h.error _ [] hP
        · cases aspaChange (flagAnnounce (pdu.sessionId.toNat / 2 ^ 8)) ⟨x.1.toNat, tas⟩
            c.rs.aspa with
          | error err => exact h.reject hP err pdu
          | ok set => exact h.transfer ⟨c.rs.roaSet, set⟩ c.rs.serial hP (not_not.mp hstate)

theorem setTimes_quiet (rs : Session) (refresh retry expire : ℕ) :
    Quiet rs (rs.setTimes refresh retry expire).1 := by
  unfold Session.setTimes
  split_ifs
  · exact Quiet.refl rs
  all_goals exact ⟨rfl, rfl, rfl, rfl, rfl, rfl, rfl, rfl, Or.inl⟩

/-- A property that the rules keep holds after an end of data. -/
theorem rtrParseEndOfData (h : Closed ok P) (ha : Allows ok) (hP : P c) :
    Sound P (rtrParseEndOfData c pdu) := by
  unfold Rtr.rtrParseEndOfData
  cases Rde.Nlri.ibufGetN32 pdu.body with
  | none => exact Sound.ok (h.reject hP _ pdu)
  | some x =>
    dsimp only
    cases (if c.rs.version = 0 then some none else (getTimes x.2).map some) with
    | none => exact Sound.ok (h.reject hP _ pdu)
    | some times =>
      dsimp only
      split_ifs with hsid hstate
      · exact Sound.ok (h.reject hP _ pdu)
      · exact Sound.ok (h.reject hP _ pdu)
      have hstate := not_not.mp hstate
      have hP' := h.transfer c.rs.toRpkiData x.1.toNat hP hstate
      have hok : ∀ rs : Session, ok rs .endOfData := fun rs =>
        ha.always (by simp) (by simp) (by simp)
      cases times with
      | none => exact h.fsm hP' hstate (hok _)
      | some t =>
        have hq := setTimes_quiet { c.rs with serial := x.1.toNat } t.1 t.2.1 t.2.2
        have hP'' := h.quietly hP' hq
        dsimp only
        split_ifs
        · exact h.fsm hP'' (hq.state.trans hstate) (hok _)
        · exact Sound.ok (h.reject hP'' _ pdu)

theorem errorEvent_cases {event : Event} (h : errorEvent pdu = some event) :
    event = .resetAndClose ∨ event = .noData ∨ event = .unsuppProtoVersion := by
  unfold errorEvent at h
  split_ifs at h
  · exact Or.inl (Option.some.inj h).symm
  · split at h <;> cases h <;> simp

theorem rtrParseError (h : Closed ok P) (hP : P c) (hopen : c.rs.connOpen = true)
    (hok : ∀ event ∈ errorEvent pdu, ok c.rs event) : Sound P (rtrParseError c pdu) := by
  unfold Rtr.rtrParseError
  cases hevent : errorEvent pdu with
  | none => exact Sound.ok hP
  | some event =>
    refine h.fsm hP ?_ (hok event hevent)
    rcases errorEvent_cases hevent with rfl | rfl | rfl
    · trivial
    · exact hopen
    · trivial

/-- PDUs of any type and content keep a property. -/
theorem rtrProcessMsg (h : Closed ok P) (ha : Allows ok) (hP : P c) (hopen : c.rs.connOpen = true)
    (hnotify : pdu.type = .serialNotify → c.rs.state ≠ .negotiation → c.rs.sessionId = none →
      ok c.rs .serialNotify)
    (herror : pdu.type = .errorReport → errorEvent pdu = some .noData → ok c.rs .noData) :
    Sound P (rtrProcessMsg c pdu) := by
  unfold Rtr.rtrProcessMsg
  obtain ⟨hP', hq⟩ := h.rtrParseHeader ha hP hopen pdu
  generalize Rtr.rtrParseHeader c pdu = r at *
  obtain ⟨c', accepted⟩ := r
  dsimp only at hP' hq ⊢
  split_ifs with hacc
  · exact Sound.ok hP'
  obtain ⟨hopen, hq⟩ := hq (by simpa using hacc)
  cases htype : pdu.type with
  | serialNotify =>
    have hq := hq (Or.inr htype)
    refine h.rtrParseNotify ha hP' fun hneg hsid => ?_
    rw [hq.state] at hneg
    rw [hq.sessionId] at hsid
    exact ha.quiet hq (hnotify htype hneg hsid)
  | cacheResponse => exact h.rtrParseCacheResponse hP' hopen
  | ipv4Prefix => exact Sound.ok (h.rtrParsePrefix hP' 32 getIpv4)
  | ipv6Prefix => exact Sound.ok (h.rtrParsePrefix hP' 128 getIpv6)
  | endOfData => exact h.rtrParseEndOfData ha hP'
  | cacheReset => exact h.rtrParseCacheReset ha hP'
  | routerKey => exact Sound.ok hP'
  | errorReport =>
    have hq := hq (Or.inl htype)
    refine h.rtrParseError hP' hopen fun event hevent => ?_
    rcases errorEvent_cases hevent with rfl | rfl | rfl
    · exact ha.always (by simp) (by simp) (by simp)
    · exact ha.quiet hq (herror htype hevent)
    · exact ha.always (by simp) (by simp) (by simp)
  | aspa => exact Sound.ok (h.rtrParseAspa hP')
  | serialQuery | resetQuery | unknown => exact Sound.ok (h.reject hP' _ pdu)

/-! ## Connections and timers -/

theorem rtrOpen (h : Closed ok P) (ha : Allows ok) (hP : P c) : Sound P (rtrOpen c) := by
  have hopen : ∀ c, P c → c.rs.state = .closed ∨ c.rs.state = .negotiation →
      Sound P (rtrFsm (c.modify fun rs => { rs with connOpen := true }) .conOpen) :=
        fun c hP hstate =>
    h.fsm (h.conn hP hstate) ⟨hstate, rfl⟩ (ha.always (by simp) (by simp) (by simp))
  have hversion : ∀ c, P c → c.rs.state = .closed ∨ c.rs.state = .negotiation →
      Sound P (rtrFsm ((if c.rs.state = .closed then
        c.modify fun rs => { rs with version := rs.maxVersion, prevVersion := rs.maxVersion }
        else c).modify fun rs => { rs with connOpen := true }) .conOpen) := by
    intro c hP hstate
    split_ifs
    · exact hopen _ (h.quietly hP ⟨rfl, rfl, rfl, rfl, rfl, rfl, rfl, rfl, Or.inl⟩) hstate
    · exact hopen c hP hstate
  unfold Rtr.rtrOpen
  split_ifs with hstate
  · obtain ⟨c', hc', hP'⟩ := h.fsm (e := .conClose) hP trivial
      (ha.always (by simp) (by simp) (by simp))
    rw [hc']
    exact hversion c' hP' (conClose_rs hc').2.2
  · refine hversion c hP ?_
    rwa [not_and_or, not_not, not_not] at hstate

theorem rtrTimer (h : Closed ok P) (ha : Allows ok) (hP : P c) (t : Timer)
    (hok : t = .active → c.rs.timers .active = true → ok c.rs .timerActive) :
    Sound P (rtrTimer t c) := by
  unfold Rtr.rtrTimer
  split_ifs with hrun
  · have hq : Quiet c.rs (c.rs.timerStop t) := ⟨rfl, rfl, rfl, rfl, rfl, rfl, rfl, rfl, Or.inl⟩
    have hP' := h.quietly hP hq
    cases t with
    | active => exact h.fsm hP' trivial (ha.quiet hq (hok rfl hrun))
    | _ => exact h.fsm hP' trivial (ha.always (by decide) (by decide) (by decide))
  · exact Sound.ok hP

theorem rtrWrite (h : Closed ok P) (ha : Allows ok) (hP : P c) (n : ℕ) :
    Sound P (rtrWrite n c) := by
  have hP' := h.quietly (r := { c.rs with w := c.rs.w.drop n }) hP
    ⟨rfl, rfl, rfl, rfl, rfl, rfl, rfl, rfl, Or.inl⟩
  unfold Rtr.rtrWrite
  dsimp only
  split_ifs
  · exact h.fsm hP' trivial (ha.always (by simp) (by simp) (by simp))
  · exact Sound.ok hP'

theorem rtrRead (h : Closed ok P) (hP : P c) (hopen : c.rs.connOpen = true) (pdus : List Pdu)
    (bad : Option (List UInt8)) : Sound P (rtrRead pdus bad c) := by
  have hP' := h.quietly (r := { c.rs with rbufs := c.rs.rbufs ++ pdus }) hP
    ⟨rfl, rfl, rfl, rfl, rfl, rfl, rfl, rfl, fun _ => Or.inr hopen⟩
  cases bad with
  | none => exact Sound.ok hP'
  | some hdr => exact Sound.ok (h.error _ hdr hP')

theorem rtrFree (h : Closed ok P) (ha : Allows ok) (hP : P c) : Sound P (rtrFree c) :=
  h.fsm (e := .conClose) (h.reset hP) trivial (ha.always (by simp) (by simp) (by simp))

end Closed

/-! ## The engine -/

/-- The events that a step raises are allowed. -/
def Allowed (ok : Session → Event → Prop) (e : Engine) : Input → Prop
  | .timer id .active =>
    e.reading = none → ∀ c ∈ e.focus id, c.rs.timers .active = true → ok c.rs .timerActive
  | .process =>
    ∀ id ∈ e.reading, ∀ c ∈ e.focus id, ∀ pdu ∈ c.rs.rbufs.head?,
      (pdu.type = .serialNotify → c.rs.state ≠ .negotiation → c.rs.sessionId = none →
        ok c.rs .serialNotify) ∧
      (pdu.type = .errorReport → errorEvent pdu = some .noData → ok c.rs .noData)
  | _ => True

instance (ok : Session → Event → Prop) [∀ rs event, Decidable (ok rs event)] (e : Engine)
    (i : Input) : Decidable (Allowed ok e i) :=
  match i with
  | .timer id .active => inferInstanceAs (Decidable (e.reading = none →
      ∀ c ∈ e.focus id, c.rs.timers .active = true → ok c.rs .timerActive))
  | .process => inferInstanceAs (Decidable (∀ id ∈ e.reading, ∀ c ∈ e.focus id,
      ∀ pdu ∈ c.rs.rbufs.head?,
        (pdu.type = .serialNotify → c.rs.state ≠ .negotiation → c.rs.sessionId = none →
          ok c.rs .serialNotify) ∧
        (pdu.type = .errorReport → errorEvent pdu = some .noData → ok c.rs .noData)))
  | .timer _ .refresh | .timer _ .retry | .timer _ .expire | .reconfConf | .roaItem .. |
    .aspaItem .. | .rtrConfig .. | .reconfDone _ | .socketSetup _ | .expire _ | .hangup _ |
    .write .. | .readError _ | .read .. => isTrue trivial

/-- A property of the engine, and the property `P` that holds while it handles a session. -/
structure EngineRule (ok : Session → Event → Prop) (P : Cur → Prop)
    (Q : Shared → List Session → Prop) : Prop where
  closed : Closed ok P
  allows : Allows ok
  opened : ∀ {c : Cur}, P c → c.rs.rbufs ≠ [] → c.rs.connOpen = true
  focus : ∀ {sh : Shared} {before after : List Session} {rs : Session} (listed : Bool),
    Q sh (before ++ rs :: after) →
      P { sh with before := before, rs := rs, after := after, listed := listed }
  put : ∀ {c : Cur}, P c → Q c.toShared (c.before ++ c.rs :: c.after)
  free : ∀ {c : Cur}, P c → c.rs.activeLock = false → Q c.toShared (c.before ++ c.after)
  config : ∀ {sh : Shared} {rtrs : List Session} (conf : Static) (nconf : Option Static),
    Q sh rtrs → Q { sh with conf := conf, nconf := nconf } rtrs
  mark : ∀ {sh : Shared} {rtrs : List Session}, Q sh rtrs →
    Q sh (rtrs.map fun rs => { rs with reconfAction := .delete })
  new : ∀ {sh : Shared} {rtrs : List Session} (id minVersion : ℕ), Q sh rtrs →
    Q sh (rtrs ++ [newSession id minVersion])
  recalc : ∀ {sh : Shared} {rtrs : List Session}, Q sh rtrs → Q (sh.recalc rtrs) rtrs

namespace EngineRule

variable {Q : Shared → List Session → Prop} {e : Engine}

theorem ofFocus (h : EngineRule ok P Q) (hQ : Q e.toShared e.rtrs) {id : ℕ}
    (hc : c ∈ e.focus id) : P c := by
  have hsplit := List.takeWhile_append_dropWhile (p := fun rs : Session => decide (rs.id ≠ id))
    (l := e.rtrs)
  unfold Engine.focus at hc
  cases hrest : e.rtrs.dropWhile (fun rs => decide (rs.id ≠ id)) with
  | nil =>
    rw [hrest] at hc
    cases hc
  | cons rs after =>
    rw [hrest] at hc hsplit
    obtain rfl := Option.some.inj hc
    rw [← hsplit] at hQ
    exact h.focus true hQ

/-- What `P` is after the session was handled is `Q` again. -/
theorem map_put (h : EngineRule ok P Q) (e : Engine) {r : Except RtrFatal Cur} (hr : Sound P r) :
    ∃ e', r.map e.put = .ok e' ∧ Q e'.toShared e'.rtrs := by
  obtain ⟨c, rfl, hP⟩ := hr
  exact ⟨e.put c, rfl, h.put hP⟩

theorem withSession (h : EngineRule ok P Q) (hQ : Q e.toShared e.rtrs) (id : ℕ)
    {f : Cur → Except RtrFatal Cur} (hf : ∀ c ∈ e.focus id, P c → Sound P (f c)) :
    ∃ e', e.withSession id f = .ok e' ∧ Q e'.toShared e'.rtrs := by
  unfold Engine.withSession
  cases hc : e.focus id with
  | none => exact ⟨e, rfl, hQ⟩
  | some c => exact h.map_put e (hf c hc (h.ofFocus hQ hc))

theorem rtrConfigMerge (h : EngineRule ok P Q) {sh : Shared} {kept rest : List Session}
    (hQ : Q sh (kept ++ rest)) :
    ∃ r, rtrConfigMerge sh kept rest = .ok r ∧ Q r.1 r.2 := by
  induction rest generalizing sh kept with
  | nil => exact ⟨(sh, kept), rfl, by rwa [List.append_nil] at hQ⟩
  | cons rs rest ih =>
    rw [Rtr.rtrConfigMerge]
    split_ifs
    · obtain ⟨c, hc, hP⟩ := h.closed.rtrFree h.allows (h.focus false hQ)
      have hfree := h.free hP (Closed.conClose_rs hc).1
      obtain ⟨hbefore, hafter⟩ := Closed.conClose_frame hc
      rw [hc]
      rw [hbefore, hafter] at hfree
      exact ih hfree
    · exact ih (by rwa [List.append_assoc, List.singleton_append])

theorem expireStatic (h : EngineRule ok P Q) (hQ : Q e.toShared e.rtrs) (now : ℕ) :
    Q (e.expireStatic now).toShared (e.expireStatic now).rtrs := by
  have hrecalc : ∀ (e : Engine) (p : Prop) [Decidable p], Q e.toShared e.rtrs →
      Q (if p then e.recalc else e).toShared (if p then e.recalc else e).rtrs := by
    intro e p inst hQ
    by_cases hp : p
    · rw [if_pos hp]
      exact h.recalc hQ
    · rw [if_neg hp]
      exact hQ
  exact hrecalc _ _ (h.config _ _ (hrecalc _ _ (h.config _ _ hQ)))

/-- Every step keeps a property of the engine, and there is no `fatalx`. -/
theorem step (h : EngineRule ok P Q) (hQ : Q e.toShared e.rtrs) {i : Input} (hok : Allowed ok e i) :
    ∃ e', e.step i = .ok e' ∧ Q e'.toShared e'.rtrs := by
  unfold Engine.step
  cases hread : e.reading with
  | some id =>
    cases i with
    | process =>
      dsimp only
      unfold Engine.process
      cases hc : e.focus id with
      | none => exact ⟨_, rfl, hQ⟩
      | some c =>
        dsimp only
        cases hbuf : c.rs.rbufs with
        | nil => exact ⟨_, rfl, hQ⟩
        | cons pdu rest =>
          have hok := hok id hread c hc pdu (by rw [hbuf]; rfl)
          have hbufs : c.rs.rbufs ≠ [] := by
            rw [hbuf]
            exact List.cons_ne_nil pdu rest
          have hq : Quiet c.rs { c.rs with rbufs := rest } :=
            ⟨rfl, rfl, rfl, rfl, rfl, rfl, rfl, rfl, fun _ => Or.inl hbufs⟩
          have hP := h.closed.quietly (h.ofFocus hQ hc) hq
          have hopen := h.opened (h.ofFocus hQ hc) hbufs
          exact h.map_put e (h.closed.rtrProcessMsg h.allows hP hopen
            (fun htype hneg hsid => h.allows.quiet hq (hok.1 htype hneg hsid))
            (fun htype hevent => h.allows.quiet hq (hok.2 htype hevent)))
    | _ => exact ⟨e, rfl, hQ⟩
  | none =>
    dsimp only
    have hfsm : ∀ {c : Cur} {event : Event}, P c → Guard c.rs event → event ≠ .noData →
        event ≠ .timerActive → event ≠ .serialNotify → Sound P (rtrFsm c event) :=
      fun hP hg h₁ h₂ h₃ => h.closed.fsm hP hg (h.allows.always h₁ h₂ h₃)
    cases i with
    | reconfConf => exact ⟨_, rfl, h.mark (h.config _ _ hQ)⟩
    | roaItem roa expires => exact ⟨_, rfl, h.config _ _ hQ⟩
    | aspaItem aspa expires => exact ⟨_, rfl, h.config _ _ hQ⟩
    | rtrConfig id minVersion =>
      unfold Engine.idleStep Engine.rtrConfig
      dsimp only
      split_ifs
      · exact h.withSession hQ id fun c _ hP =>
          Sound.ok (h.closed.quietly hP ⟨rfl, rfl, rfl, rfl, rfl, rfl, rfl, rfl, Or.inl⟩)
      · exact h.withSession (h.new id minVersion hQ) id fun c _ hP =>
          hfsm hP trivial (by simp) (by simp) (by simp)
    | reconfDone now =>
      unfold Engine.idleStep Engine.reconfDone
      dsimp only
      cases e.nconf with
      | none => exact ⟨e, rfl, hQ⟩
      | some nconf =>
        have hQ₀ : Q { e.toShared with conf := nconf, nconf := some nconf } ([] ++ e.rtrs) :=
          h.config nconf (some nconf) hQ
        obtain ⟨⟨sh, rtrs⟩, hmerge, hQ'⟩ := h.rtrConfigMerge hQ₀
        dsimp only
        rw [hmerge]
        exact ⟨_, rfl, h.recalc (h.config _ _ hQ')⟩
    | socketSetup id => exact h.withSession hQ id fun c _ hP => h.closed.rtrOpen h.allows hP
    | expire now => exact ⟨_, rfl, h.expireStatic hQ now⟩
    | hangup id =>
      exact h.withSession hQ id fun c _ hP => hfsm hP trivial (by simp) (by simp) (by simp)
    | write id n => exact h.withSession hQ id fun c _ hP => h.closed.rtrWrite h.allows hP n
    | readError id =>
      refine h.withSession hQ id fun c _ hP => ?_
      split_ifs
      · exact Sound.ok hP
      · exact hfsm hP trivial (by simp) (by simp) (by simp)
    | read id pdus bad =>
      unfold Engine.idleStep
      dsimp only
      cases hc : e.focus id with
      | none => exact ⟨e, rfl, hQ⟩
      | some c =>
        dsimp only
        by_cases hpoll : c.rs.pollsIn = true
        · have hopen : c.rs.connOpen = true := (Bool.and_eq_true_iff.mp hpoll).1
          obtain ⟨c', hc', hP⟩ := h.closed.rtrRead (h.ofFocus hQ hc) hopen pdus bad
          rw [if_pos hpoll, hc']
          exact ⟨_, rfl, h.put hP⟩
        · rw [if_neg hpoll]
          exact ⟨e, rfl, hQ⟩
    | process => exact ⟨e, rfl, hQ⟩
    | timer id t =>
      refine h.withSession hQ id fun c hc hP => h.closed.rtrTimer h.allows hP t ?_
      rintro rfl hrun
      exact hok hread c hc hrun

end EngineRule

end Bgpd.Rtr
