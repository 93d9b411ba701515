import Bgpd.Lib.Run
import Bgpd.Rtr.Rules
import Mathlib.Data.List.TakeWhile

/-!
# Version Negotiation

A session starts a connection with the highest version it supports. A cache that does not know this
version answers with a lower one or with an error report, and the session goes on with the version
of the answer. Runs are watched: for each connection the log has the version it started with and the
versions of the queries that were sent on it.

## Main results

- `VersionInv`: what holds for a session and the log of its connection
- `versions_negotiated`: in runs without misleading error reports the version stays between the
  minimum and the one at the start, and every query that is sent again has a lower version
- `version_not_negotiated`: runs with such reports
-/

namespace Bgpd.Rtr

open Lib
open Rpki (AnyRoa)

/-! ## Watched runs -/

/-- The version of a query. -/
def OutPdu.queryVersion : OutPdu → Option ℕ
  | .resetQuery version => some version
  | .serialQuery version _ _ => some version
  | .errorReport .. => none

/-- The versions of the queries that were added to the queue. -/
def newQueries (rs rs' : Session) : List ℕ :=
  (rs'.w.drop rs.w.length).filterMap OutPdu.queryVersion

/-- The version at the start of a connection, and the queries of the connection: their version, and
    whether they were sent again because of a version error. -/
structure ConnLog where
  start : ℕ := 0
  queries : List (ℕ × Bool) := []

/-- How many queries were sent again. -/
def ConnLog.resends (log : ConnLog) : ℕ := log.queries.countP (·.2)

/-- An error report is complete. -/
def Pdu.complete (pdu : Pdu) : Prop := 8 ≤ pdu.body.length ∧ errorEncoded pdu.body = true

instance (pdu : Pdu) : Decidable pdu.complete := inferInstanceAs (Decidable (_ ∧ _))

/-- An error report with `UNSUPP_PROTOCOL_VERS`. -/
def Pdu.versionError (pdu : Pdu) : Bool :=
  pdu.type = .errorReport ∧ pdu.sessionId.toNat = 4 ∧ pdu.complete

/-- The log after a step. -/
def ConnLog.after (log : ConnLog) (opened resent : Bool) (rs rs' : Session) : ConnLog :=
  if opened then ⟨rs'.version, ((rs'.w.getLast?.bind OutPdu.queryVersion).toList).map (·, false)⟩
  else { log with queries := log.queries ++ (newQueries rs rs').map (·, resent) }

/-- The engine and the logs of its connections. -/
structure Watched where
  engine : Engine := {}
  log : ℕ → ConnLog := fun _ => {}

/-- `rtr_get` -/
def Engine.get (e : Engine) (id : ℕ) : Option Session := e.rtrs.find? (·.id = id)

/-- The step opens a connection of the session. -/
def Engine.opens (e : Engine) (i : Input) (id : ℕ) : Bool :=
  match i with
  | .socketSetup id' => e.reading.isNone && id' = id
  | _ => false

/-- The PDU of the session that the step handles. -/
def Engine.handles (e : Engine) (i : Input) (id : ℕ) : Option Pdu :=
  match i with
  | .process => if e.reading = some id then (e.get id).bind (·.rbufs.head?) else none
  | _ => none

/-- The logs after the engine went to `e`. A session that is new has an empty one. -/
def Watched.next (w : Watched) (i : Input) (e : Engine) : Watched where
  engine := e
  log id :=
    match w.engine.get id, e.get id with
    | some rs, some rs' => (w.log id).after (w.engine.opens i id)
        ((w.engine.handles i id).any Pdu.versionError) rs rs'
    | _, _ => {}

/-- A step of the engine, with the logs. -/
def watchStep (w : Watched) (i : Input) : Option Watched := (rtrStep w.engine i).map (w.next i)

/-- Versions are negotiated within their bounds, and what is sent again has a lower version. -/
def Watched.Negotiated (w : Watched) : Prop :=
  ∀ rs ∈ w.engine.rtrs,
    (rs.state = .established ∨ rs.state = .exchange →
      rs.minVersion ≤ rs.version ∧ rs.version ≤ (w.log rs.id).start) ∧
    (w.log rs.id).queries.IsChain (fun a b => b.2 = true → b.1 < a.1) ∧
    (w.log rs.id).resends ≤ (w.log rs.id).start

/-! ## What is expected of the cache and the configuration -/

/-- The report lowers the version. -/
def Session.lowers (rs : Session) (pdu : Pdu) : Prop :=
  rs.state = .negotiation ∧ downgrades pdu.sessionId.toNat = true ∧ pdu.version.toNat < rs.version

/-- A report that lowers the version below the minimum fails the negotiation, and a report about the
    version lowers it, or the version was never lowered. -/
def ReportOk (rs : Session) (pdu : Pdu) : Prop :=
  (rs.lowers pdu → pdu.version.toNat < rs.minVersion →
    pdu.sessionId.toNat = 4 ∧ pdu.complete) ∧
  (pdu.sessionId.toNat = 4 → pdu.complete →
    rs.lowers pdu ∨ rs.prevVersion = rs.version)

instance (rs : Session) (pdu : Pdu) : Decidable (rs.lowers pdu) :=
  inferInstanceAs (Decidable (_ ∧ _ ∧ _))

instance (rs : Session) (pdu : Pdu) : Decidable (ReportOk rs pdu) :=
  inferInstanceAs (Decidable (_ ∧ _))

/-- The condition on a step: error reports are as expected, and a reload does not raise the minimum
    above the version of a session that is in use. -/
def VersionsOk (w : Watched) : Input → Prop
  | .process => ∀ id ∈ w.engine.reading, ∀ rs ∈ w.engine.get id, ∀ pdu ∈ rs.rbufs.head?,
      pdu.type = .errorReport → ReportOk rs pdu
  | .rtrConfig id minVersion => w.engine.reading = none → ∀ rs ∈ w.engine.get id,
      rs.state = .closed ∨ minVersion ≤ rs.version
  | _ => True

instance (w : Watched) (i : Input) : Decidable (VersionsOk w i) := by
  cases i <;> unfold VersionsOk <;> infer_instance

/-! ## Steps that leave the versions alone -/

/-- The versions stay, and a connection is at most closed. -/
structure Calm (rs rs' : Session) : Prop where
  id : rs'.id = rs.id
  minVersion : rs'.minVersion = rs.minVersion
  version : rs'.version = rs.version
  prevVersion : rs'.prevVersion = rs.prevVersion
  negotiation : rs'.state = .negotiation → rs.state = .negotiation
  closed : rs'.state = .closed → rs.state = .closed ∨ rs'.connOpen = false
  conn : rs'.connOpen = true → rs.connOpen = true
  bufs : rs'.connOpen = false → (rs.connOpen = false → rs.rbufs = []) → rs'.rbufs = []
  queries : ∀ v ∈ newQueries rs rs', v = rs.version

variable {rs rs' : Session} {c c' : Cur} {pdu : Pdu} {event : Event} {log : ConnLog}

theorem newQueries_of_append {l : List OutPdu} (h : rs'.w = rs.w ++ l) :
    newQueries rs rs' = l.filterMap OutPdu.queryVersion := by
  rw [newQueries, h, List.drop_left]

theorem newQueries_of_length_le (h : rs'.w.length ≤ rs.w.length) : newQueries rs rs' = [] := by
  rw [newQueries, List.drop_eq_nil_of_le h, List.filterMap_nil]

theorem queries_of_length_le (h : rs'.w.length ≤ rs.w.length) :
    ∀ v ∈ newQueries rs rs', v = rs.version := by
  rw [newQueries_of_length_le h]
  exact fun v hv => absurd hv List.not_mem_nil

/-- Nothing that concerns the negotiation is changed. -/
theorem Calm.of_same (hid : rs'.id = rs.id) (hmin : rs'.minVersion = rs.minVersion)
    (hversion : rs'.version = rs.version) (hprev : rs'.prevVersion = rs.prevVersion)
    (hneg : rs'.state = .negotiation → rs.state = .negotiation)
    (hclosed : rs'.state = .closed → rs.state = .closed) (hconn : rs'.connOpen = rs.connOpen)
    (hbufs : rs'.rbufs = rs.rbufs) (hw : ∃ l, rs'.w = rs.w ++ l ∧
      ∀ v ∈ l.filterMap OutPdu.queryVersion, v = rs.version) : Calm rs rs' where
  id := hid
  minVersion := hmin
  version := hversion
  prevVersion := hprev
  negotiation := hneg
  closed := fun h => Or.inl (hclosed h)
  conn := fun h => by rwa [hconn] at h
  bufs := fun h hbuf => by
    rw [hbufs]
    exact hbuf (by rwa [hconn] at h)
  queries := by
    obtain ⟨l, hl, hv⟩ := hw
    rwa [newQueries_of_append hl]

/-- Most steps add nothing to the queue. -/
theorem Calm.of_quiet (hid : rs'.id = rs.id) (hmin : rs'.minVersion = rs.minVersion)
    (hversion : rs'.version = rs.version) (hprev : rs'.prevVersion = rs.prevVersion)
    (hneg : rs'.state = .negotiation → rs.state = .negotiation)
    (hclosed : rs'.state = .closed → rs.state = .closed) (hconn : rs'.connOpen = rs.connOpen)
    (hbufs : rs'.rbufs = rs.rbufs) (hw : rs'.w = rs.w) : Calm rs rs' :=
  .of_same hid hmin hversion hprev hneg hclosed hconn hbufs
    ⟨[], by rw [hw, List.append_nil], by simp⟩

theorem Calm.refl (rs : Session) : Calm rs rs :=
  .of_quiet rfl rfl rfl rfl (fun h => h) (fun h => h) rfl rfl rfl

/-- What follows on steps that leave the queue alone. -/
theorem Calm.trans {rs₁ : Session} (h : Calm rs rs₁) (hw : rs₁.w = rs.w) (h' : Calm rs₁ rs') :
    Calm rs rs' where
  id := h'.id.trans h.id
  minVersion := h'.minVersion.trans h.minVersion
  version := h'.version.trans h.version
  prevVersion := h'.prevVersion.trans h.prevVersion
  negotiation := fun hs => h.negotiation (h'.negotiation hs)
  closed := fun hs => by
    rcases h'.closed hs with hs | hs
    · refine (h.closed hs).imp_right fun hconn => ?_
      exact (Bool.not_eq_true _).mp fun hopen => by
        rw [h'.conn hopen] at hconn
        exact absurd hconn Bool.noConfusion
    · exact Or.inr hs
  conn := fun hs => h.conn (h'.conn hs)
  bufs := fun hs hbuf => h'.bufs hs fun hconn => h.bufs hconn hbuf
  queries := fun v hv => by
    rw [← h.version]
    refine h'.queries v ?_
    rwa [newQueries, hw]

/-- The session is calm, the other ones are left alone. -/
structure Handled (c c' : Cur) : Prop where
  rs : Calm c.rs c'.rs
  before : c'.before = c.before
  after : c'.after = c.after

theorem Handled.refl (c : Cur) : Handled c c := ⟨Calm.refl _, rfl, rfl⟩

theorem Handled.trans {c₁ : Cur} (h : Handled c c₁) (hw : c₁.rs.w = c.rs.w) (h' : Handled c₁ c') :
    Handled c c' :=
  ⟨h.rs.trans hw h'.rs, h'.before.trans h.before, h'.after.trans h.after⟩

/-- Fields are changed that the negotiation does not need. -/
theorem handled_modify (c : Cur) {f : Session → Session} (hid : (f c.rs).id = c.rs.id)
    (hmin : (f c.rs).minVersion = c.rs.minVersion) (hversion : (f c.rs).version = c.rs.version)
    (hprev : (f c.rs).prevVersion = c.rs.prevVersion) (hstate : (f c.rs).state = c.rs.state)
    (hconn : (f c.rs).connOpen = c.rs.connOpen) (hbufs : (f c.rs).rbufs = c.rs.rbufs)
    (hw : (f c.rs).w = c.rs.w) : Handled c (c.modify f) :=
  ⟨.of_quiet hid hmin hversion hprev (fun h => hstate.symm.trans h) (fun h => hstate.symm.trans h)
    hconn hbufs hw, rfl, rfl⟩

theorem handled_sendError (c : Cur) (err : RtrError) (pdu : List UInt8) :
    Handled c (c.sendError err pdu) := by
  refine ⟨.of_same rfl rfl rfl rfl (fun h => ?_) (fun h => ?_) rfl rfl
    ⟨[.errorReport c.rs.version err (pdu.take 256)], rfl, by simp [OutPdu.queryVersion]⟩, rfl, rfl⟩
  · cases h
  · cases h

theorem handled_reject (c : Cur) (err : RtrError) (pdu : Pdu) : Handled c (c.reject err pdu) :=
  handled_sendError c err pdu.bytes

/-- A session whose connection is closed. -/
theorem calm_closeConn (c : Cur) : Calm c.rs c.closeConn.rs := by
  have hstate : ∀ s : State, (if s = .negotiation then State.negotiation else .closed) =
      .negotiation → s = .negotiation := by
    intro s
    split_ifs with hs
    · exact fun _ => hs
    · exact fun h => nomatch h
  unfold Cur.closeConn
  dsimp only
  split_ifs with hopen
  · exact ⟨rfl, rfl, rfl, rfl, hstate c.rs.state, fun _ => Or.inr rfl, (fun h => nomatch h),
      fun _ _ => rfl, queries_of_length_le (Nat.zero_le _)⟩
  · have hopen' : c.rs.connOpen = false := (Bool.not_eq_true _).mp hopen
    exact ⟨rfl, rfl, rfl, rfl, hstate c.rs.state, fun _ => Or.inr hopen', fun h => h,
      fun _ hbuf => hbuf hopen', queries_of_length_le (Nat.le_refl _)⟩

theorem semRelease_eq (h : c.semRelease = .ok c') :
    c'.rs = c.rs ∧ c'.before = c.before ∧ c'.after = c.after := by
  unfold Cur.semRelease at h
  dsimp only at h
  split_ifs at h
  obtain rfl := Except.ok.inj h
  exact ⟨rfl, rfl, rfl⟩

/-- Resetting the cache and giving the lock back does not matter here. -/
theorem handled_conClose {reset : Bool} (h : c.conClose reset = .ok c') : Handled c c' := by
  obtain ⟨hbefore, hafter⟩ := Closed.conClose_frame h
  refine ⟨?_, hbefore, hafter⟩
  unfold Cur.conClose at h
  split_ifs at h
  · cases hrel : (c.modify Session.resetCache).semRelease with
    | error e =>
      rw [hrel] at h
      cases h
    | ok c₁ =>
      have hrs : c₁.rs = c.rs.resetCache := (semRelease_eq hrel).1
      rw [hrel] at h
      obtain rfl := Except.ok.inj h
      have hcalm := calm_closeConn (c₁.modify fun rs => { rs with activeLock := false }).recalc
      change Calm { c₁.rs with activeLock := false } _ at hcalm
      rw [hrs] at hcalm
      exact ⟨hcalm.id, hcalm.minVersion, hcalm.version, hcalm.prevVersion, hcalm.negotiation,
        hcalm.closed, hcalm.conn, hcalm.bufs, hcalm.queries⟩
  · obtain rfl := Except.ok.inj h
    exact calm_closeConn c

theorem releaseLock_eq (h : c.releaseLock = .ok c') :
    c'.rs = { c.rs with activeLock := false } ∧ c'.before = c.before ∧ c'.after = c.after := by
  unfold Cur.releaseLock at h
  cases hrel : c.semRelease with
  | error e =>
    rw [hrel] at h
    cases h
  | ok c₁ =>
    obtain ⟨hrs, hbefore, hafter⟩ := semRelease_eq hrel
    rw [hrel] at h
    obtain rfl := Except.ok.inj h
    exact ⟨by rw [← hrs]; rfl, hbefore, hafter⟩

/-- Closing a connection adds nothing to the queue. -/
theorem conClose_w {reset : Bool} (h : c.conClose reset = .ok c') :
    c'.rs.w.length ≤ c.rs.w.length := by
  have hclose : ∀ c : Cur, c.closeConn.rs.w.length ≤ c.rs.w.length := by
    intro c
    unfold Cur.closeConn
    dsimp only
    split_ifs
    · exact Nat.zero_le _
    · exact Nat.le_refl _
  unfold Cur.conClose at h
  split_ifs at h
  · obtain ⟨c₁, hc₁, hret⟩ := except_bind_ok h
    obtain rfl := Except.ok.inj hret
    have hle := hclose (c₁.modify fun rs => { rs with activeLock := false }).recalc
    change _ ≤ c₁.rs.w.length at hle
    rwa [(semRelease_eq hc₁).1] at hle
  · obtain rfl := Except.ok.inj h
    exact hclose c

theorem sendQuery_eq (rs : Session) : ∃ q, rs.sendQuery = rs.send q ∧
    q.queryVersion = some rs.version := by
  unfold Session.sendQuery
  split_ifs
  · exact ⟨_, rfl, rfl⟩
  · exact ⟨_, rfl, rfl⟩

theorem calm_send (rs : Session) {q : OutPdu} (hq : q.queryVersion = some rs.version) :
    Calm rs (rs.send q) :=
  .of_same rfl rfl rfl rfl (fun h => h) (fun h => h) rfl rfl
    ⟨[q], rfl, by simp [hq]⟩

theorem calm_sendQuery (rs : Session) : Calm rs rs.sendQuery := by
  obtain ⟨q, hsend, hq⟩ := sendQuery_eq rs
  rw [hsend]
  exact calm_send rs hq

theorem handled_retry (h : c.retry = .ok c') : Handled c c' := by
  unfold Cur.retry at h
  split at h
  · exact handled_conClose h
  · obtain rfl := Except.ok.inj h
    exact ⟨.of_quiet rfl rfl rfl rfl (fun h => h) (fun h => h) rfl rfl rfl, rfl, rfl⟩
  · obtain rfl := Except.ok.inj h
    exact ⟨.of_quiet rfl rfl rfl rfl (fun h => h) (fun h => h) rfl rfl rfl, rfl, rfl⟩
  · obtain rfl := Except.ok.inj h
    exact ⟨calm_sendQuery c.rs, rfl, rfl⟩
  · obtain rfl := Except.ok.inj h
    exact Handled.refl _

/-- Only opening a connection and a version error change more. -/
theorem handled_fsm (hopen : event ≠ .conOpen) (hversion : event ≠ .unsuppProtoVersion)
    (h : rtrFsm c event = .ok c') : Handled c c' := by
  cases event with
  | unsuppProtoVersion => exact absurd rfl hversion
  | conOpen => exact absurd rfl hopen
  | resetAndClose => exact handled_conClose h
  | conClose => exact handled_conClose h
  | start => exact handled_retry h
  | timerRetry => exact handled_retry h
  | timerActive =>
    obtain ⟨hrs, hbefore, hafter⟩ := releaseLock_eq h
    refine ⟨?_, hbefore, hafter⟩
    rw [hrs]
    exact .of_quiet rfl rfl rfl rfl (fun h => h) (fun h => h) rfl rfl rfl
  | timerRefresh =>
    obtain rfl := Except.ok.inj h
    exact ⟨calm_send c.rs rfl, rfl, rfl⟩
  | endOfData =>
    obtain ⟨c₁, hc₁, hret⟩ := except_bind_ok h
    obtain rfl := Except.ok.inj hret
    obtain ⟨hrs, hbefore, hafter⟩ := releaseLock_eq hc₁
    refine ⟨?_, hbefore, hafter⟩
    change Calm c.rs { c₁.rs with errored := false }
    rw [hrs]
    dsimp only [Cur.modify, Session.timerSet, Session.timerStop, Session.completed]
    exact .of_quiet rfl rfl rfl rfl (fun h => nomatch h) (fun h => nomatch h) rfl rfl rfl
  | cacheResponse | noData | negotiationDone =>
    obtain rfl := Except.ok.inj h
    exact ⟨.of_quiet rfl rfl rfl rfl (fun h => nomatch h)
      (fun h => nomatch h) rfl rfl rfl, rfl, rfl⟩
  | serialNotify | timerExpire | cacheReset =>
    obtain rfl := Except.ok.inj h
    exact ⟨.of_quiet rfl rfl rfl rfl (fun h => h) (fun h => h) rfl rfl rfl, rfl, rfl⟩

/-! ## PDUs -/

theorem handled_learnId (c : Cur) (pdu : Pdu) : Handled c (c.modify (·.learnId pdu)) ∧
    (c.modify (·.learnId pdu)).rs.w = c.rs.w := by
  cases hsid : c.rs.sessionId with
  | none =>
    unfold Cur.modify
    dsimp only
    rw [Closed.learnId_none hsid]
    exact ⟨⟨.of_quiet rfl rfl rfl rfl (fun h => h) (fun h => h) rfl rfl rfl, rfl, rfl⟩, rfl⟩
  | some sid =>
    unfold Cur.modify
    dsimp only
    rw [Closed.learnId_some (by rw [hsid]; rfl)]
    exact ⟨Handled.refl c, rfl⟩

theorem handled_notify (h : rtrParseNotify c pdu = .ok c') : Handled c c' := by
  obtain ⟨hlearn, hw⟩ := handled_learnId c pdu
  unfold rtrParseNotify at h
  dsimp only at h
  split_ifs at h
  · obtain rfl := Except.ok.inj h
    exact Handled.refl c
  · obtain rfl := Except.ok.inj h
    exact hlearn.trans hw (handled_reject _ _ pdu)
  · obtain rfl := Except.ok.inj h
    exact hlearn
  · exact hlearn.trans hw (handled_fsm (by simp) (by simp) h)

theorem handled_cacheResponse (h : rtrParseCacheResponse c pdu = .ok c') : Handled c c' := by
  obtain ⟨hlearn, hw⟩ := handled_learnId c pdu
  unfold rtrParseCacheResponse at h
  dsimp only at h
  split_ifs at h
  · obtain rfl := Except.ok.inj h
    exact hlearn.trans hw (handled_reject _ _ pdu)
  · obtain rfl := Except.ok.inj h
    exact hlearn.trans hw (handled_reject _ _ pdu)
  · exact hlearn.trans hw (handled_fsm (by simp) (by simp) h)

theorem handled_cacheReset (h : rtrParseCacheReset c pdu = .ok c') : Handled c c' := by
  unfold rtrParseCacheReset at h
  split_ifs at h
  · obtain rfl := Except.ok.inj h
    exact handled_reject c _ pdu
  · obtain rfl := Except.ok.inj h
    exact handled_reject c _ pdu
  · exact handled_fsm (by simp) (by simp) h

theorem handled_prefix (bits : ℕ) (get : List UInt8 → Option (ℕ × AnyRoa)) :
    Handled c (rtrParsePrefix bits get c pdu) := by
  unfold rtrParsePrefix
  cases get pdu.body with
  | none => exact handled_reject c _ pdu
  | some x =>
    dsimp only
    split_ifs
    · exact handled_reject c _ pdu
    · exact handled_reject c _ pdu
    · exact handled_reject c _ pdu
    · cases roaChange (flagAnnounce x.1) x.2 c.rs.roaSet with
      | error err => exact handled_reject c err pdu
      | ok set => exact handled_modify c rfl rfl rfl rfl rfl rfl rfl rfl

theorem handled_aspa : Handled c (rtrParseAspa c pdu) := by
  unfold rtrParseAspa
  cases Rde.Nlri.ibufGetN32 pdu.body with
  | none => exact handled_reject c _ pdu
  | some x =>
    dsimp only
    split_ifs
    · exact handled_reject c _ pdu
    · exact handled_reject c _ pdu
    · exact handled_reject c _ pdu
    · exact handled_modify c rfl rfl rfl rfl rfl rfl rfl rfl
    · cases getSpas (x.2.length / 4) x.2 with
      | none => exact handled_reject c _ pdu
      | some tas =>
        dsimp only
        split
        · exact handled_sendError c _ []
        · cases aspaChange (flagAnnounce (pdu.sessionId.toNat / 2 ^ 8)) ⟨x.1.toNat, tas⟩
            c.rs.aspa with
          | error err => exact handled_reject c err pdu
          | ok set => exact handled_modify c rfl rfl rfl rfl rfl rfl rfl rfl

theorem handled_setTimes (c : Cur) (refresh retry expire : ℕ) :
    Handled c { c with rs := (c.rs.setTimes refresh retry expire).1 } ∧
      (c.rs.setTimes refresh retry expire).1.w = c.rs.w := by
  unfold Session.setTimes
  split_ifs
  all_goals
    exact ⟨⟨.of_quiet rfl rfl rfl rfl (fun h => h) (fun h => h) rfl rfl rfl, rfl, rfl⟩, rfl⟩

/-- An end of data counts as an answer in the version that is spoken. -/
theorem handled_endOfData (h : rtrParseEndOfData c pdu = .ok c') : Handled c c' := by
  unfold rtrParseEndOfData at h
  cases hserial : Rde.Nlri.ibufGetN32 pdu.body with
  | none =>
    rw [hserial] at h
    obtain rfl := Except.ok.inj h
    exact handled_reject c _ pdu
  | some x =>
    rw [hserial] at h
    dsimp only at h
    cases htimes : (if c.rs.version = 0 then some none else (getTimes x.2).map some) with
    | none =>
      rw [htimes] at h
      obtain rfl := Except.ok.inj h
      exact handled_reject c _ pdu
    | some times =>
      rw [htimes] at h
      dsimp only at h
      have hserial : Handled c (c.modify fun rs => { rs with serial := x.1.toNat }) :=
        handled_modify c rfl rfl rfl rfl rfl rfl rfl rfl
      split_ifs at h
      · obtain rfl := Except.ok.inj h
        exact handled_reject c _ pdu
      · obtain rfl := Except.ok.inj h
        exact handled_reject c _ pdu
      · cases times with
        | none => exact hserial.trans rfl (handled_fsm (by simp) (by simp) h)
        | some t =>
          dsimp only at h
          obtain ⟨hset, hw⟩ := handled_setTimes (c.modify fun rs => { rs with serial := x.1.toNat })
            t.1 t.2.1 t.2.2
          refine hserial.trans rfl (hset.trans hw ?_)
          split_ifs at h
          · exact handled_fsm (by simp) (by simp) h
          · obtain rfl := Except.ok.inj h
            exact handled_reject _ _ pdu

/-- Reports that are not about the version. -/
theorem handled_error (hversion : errorEvent pdu ≠ some .unsuppProtoVersion)
    (h : rtrParseError c pdu = .ok c') : Handled c c' := by
  unfold rtrParseError at h
  cases hevent : errorEvent pdu with
  | none =>
    rw [hevent] at h
    obtain rfl := Except.ok.inj h
    exact Handled.refl c
  | some event =>
    rw [hevent] at h
    refine handled_fsm ?_ (fun heq => hversion (by rw [hevent, heq])) h
    rcases Closed.errorEvent_cases hevent with rfl | rfl | rfl
    · simp
    · simp
    · simp

/-- A session with a lower version. -/
def Session.lowerTo (rs : Session) (version : ℕ) : Session :=
  { rs with prevVersion := rs.version, version := version }

/-- What the first part of the header check makes of the versions. -/
theorem checkVersion_cases (rs : Session) (pdu : Pdu) :
    ((checkVersion rs pdu).1 = rs ∧ (pdu.type = .errorReport → ¬rs.lowers pdu)) ∨
      ((checkVersion rs pdu).1 = rs.lowerTo pdu.version.toNat ∧ rs.state = .negotiation ∧
        pdu.version.toNat < rs.version ∧
        (pdu.type = .errorReport ∧ rs.lowers pdu ∨
          pdu.type ≠ .errorReport ∧ rs.minVersion ≤ pdu.version.toNat)) := by
  unfold checkVersion Session.downgrade
  by_cases hneg : rs.state = .negotiation
  · rw [if_pos hneg]
    cases htype : pdu.type
    case errorReport =>
      dsimp only
      split_ifs with hcode hlower
      · exact Or.inr ⟨rfl, hneg, hlower, Or.inl ⟨rfl, hneg, hcode, hlower⟩⟩
      · exact Or.inl ⟨rfl, fun _ hlow => hlower hlow.2.2⟩
      · exact Or.inl ⟨rfl, fun _ hlow => hcode hlow.2.1⟩
    case cacheResponse | cacheReset =>
      dsimp only
      split_ifs with hmin hlower
      · exact Or.inl ⟨rfl, fun h => nomatch h⟩
      · exact Or.inr ⟨rfl, hneg, hlower,
          Or.inr ⟨by simp, Nat.le_of_not_lt fun hlt => hmin ⟨hlower, hlt⟩⟩⟩
      · exact Or.inl ⟨rfl, fun h => nomatch h⟩
    all_goals exact Or.inl ⟨rfl, fun h => nomatch h⟩
  · rw [if_neg hneg]
    refine Or.inl ⟨?_, fun _ hlow => hneg hlow.1⟩
    split
    · rfl
    · rfl

/-- An error report is checked for its length only. -/
theorem checkVersion_errorReport (rs : Session) (htype : pdu.type = .errorReport) :
    (checkVersion rs pdu).2 = .ok false := by
  unfold checkVersion
  rw [htype]
  by_cases hneg : rs.state = .negotiation
  · rw [if_pos hneg]
  · rw [if_neg hneg, if_neg (fun h => h.2 rfl)]

/-- A PDU that is not accepted does not change the versions. -/
theorem checkVersion_error {rs : Session} {err : RtrError}
    (h : (checkVersion rs pdu).2 = .error err) : (checkVersion rs pdu).1 = rs := by
  unfold checkVersion at h ⊢
  by_cases hneg : rs.state = .negotiation
  · rw [if_pos hneg] at h ⊢
    cases htype : pdu.type <;> rw [htype] at h
    case errorReport => cases h
    case cacheResponse | cacheReset =>
      dsimp only at h ⊢
      split_ifs at h ⊢
      rfl
  · rw [if_neg hneg]
    split
    · rfl
    · rfl

/-- A report about the version. -/
theorem rtrProcessMsg_versionError (h : pdu.versionError = true) (c : Cur) :
    rtrProcessMsg c pdu =
      rtrFsm { c with rs := (checkVersion c.rs pdu).1 } .unsuppProtoVersion := by
  obtain ⟨htype, hcode, hlen, hencoded⟩ := of_decide_eq_true h
  have hlength : ∀ version, checkLength version pdu = none := by
    intro version
    unfold checkLength
    rw [htype]
    exact if_neg (Nat.not_lt.mpr hlen)
  have hevent : errorEvent pdu = some .unsuppProtoVersion := by
    unfold errorEvent
    rw [hencoded, hcode]
    rfl
  have hcheck := checkVersion_errorReport c.rs htype
  unfold rtrProcessMsg rtrParseHeader
  generalize checkVersion c.rs pdu = r at *
  obtain ⟨rs, res⟩ := r
  dsimp only at hcheck
  subst hcheck
  dsimp only
  rw [hlength, htype]
  dsimp only
  unfold rtrParseError
  rw [hevent]
  rfl

/-- All other PDUs. -/
theorem handled_process (hversion : pdu.versionError = false) (h : rtrProcessMsg c pdu = .ok c') :
    Handled { c with rs := (checkVersion c.rs pdu).1 } c' := by
  -- an error report that gets here is not about the version
  have herr : pdu.type = .errorReport → ∀ version, checkLength version pdu = none →
      errorEvent pdu ≠ some .unsuppProtoVersion := by
    intro htype version hlength hevent
    refine absurd hversion ?_
    rw [Bool.not_eq_false]
    unfold checkLength at hlength
    rw [htype] at hlength
    dsimp only at hlength
    unfold errorEvent at hevent
    split_ifs at hlength hevent with hlen hencoded
    · cases hevent
    · refine decide_eq_true ⟨htype, ?_, Nat.le_of_not_lt hlen, by simpa using hencoded⟩
      split at hevent
      · cases hevent
      · cases hevent
      · assumption
      · cases hevent
  unfold rtrProcessMsg rtrParseHeader at h
  have hrejected := @checkVersion_error pdu c.rs
  have haccepted := @checkVersion_errorReport pdu c.rs
  generalize checkVersion c.rs pdu = r at *
  obtain ⟨rs, err | negDone⟩ := r
  · obtain rfl : rs = c.rs := hrejected rfl
    obtain rfl := Except.ok.inj h
    exact handled_reject c err pdu
  · dsimp only at h haccepted ⊢
    cases hlength : checkLength rs.version pdu with
    | some err =>
      rw [hlength] at h
      obtain rfl := Except.ok.inj h
      exact handled_reject { c with rs := rs } err pdu
    | none =>
      rw [hlength] at h
      dsimp only at h
      -- the negotiation may be done
      have hneg : ∀ c₁ : Cur, c₁ = (if negDone then
          Cur.modify { c with rs := rs } (fun rs => { rs with state := .established })
          else { c with rs := rs }) → Handled { c with rs := rs } c₁ ∧ c₁.rs.w = rs.w := by
        rintro c₁ rfl
        split_ifs
        · exact ⟨⟨.of_quiet rfl rfl rfl rfl (fun h => nomatch h) (fun h => nomatch h) rfl rfl rfl,
            rfl, rfl⟩, rfl⟩
        · exact ⟨Handled.refl _, rfl⟩
      generalize (if negDone then
          Cur.modify { c with rs := rs } (fun rs => { rs with state := .established })
          else { c with rs := rs }) = c₁ at h hneg
      obtain ⟨hc₁, hw⟩ := hneg c₁ rfl
      refine hc₁.trans hw ?_
      cases htype : pdu.type <;> rw [htype] at h
      case serialNotify => exact handled_notify h
      case cacheResponse => exact handled_cacheResponse h
      case ipv4Prefix =>
        obtain rfl := Except.ok.inj h
        exact handled_prefix 32 getIpv4
      case ipv6Prefix =>
        obtain rfl := Except.ok.inj h
        exact handled_prefix 128 getIpv6
      case endOfData => exact handled_endOfData h
      case cacheReset => exact handled_cacheReset h
      case routerKey =>
        obtain rfl := Except.ok.inj h
        exact Handled.refl _
      case errorReport => exact handled_error (herr htype _ hlength) h
      case aspa =>
        obtain rfl := Except.ok.inj h
        exact handled_aspa
      all_goals
        obtain rfl := Except.ok.inj h
        exact handled_reject _ _ pdu

/-! ## The invariant of a session -/

/-- A session and the log of its connection. Queries are only sent again during a negotiation, in
    which the version only falls. -/
structure VersionInv (log : ConnLog) (rs : Session) : Prop where
  closed : rs.state = .closed → rs.connOpen = false
  bufs : rs.connOpen = false → rs.rbufs = []
  range : rs.state ≠ .closed → rs.minVersion ≤ rs.version ∧ rs.version ≤ log.start
  prev : rs.state ≠ .closed → rs.prevVersion = rs.version → 1 ≤ rs.version
  chain : log.queries.IsChain fun a b => b.2 = true → b.1 < a.1
  resends : log.resends ≤ log.start
  negotiation : rs.state = .negotiation → log.resends + rs.version ≤ log.start
  last : rs.state = .negotiation → ∃ q ∈ log.queries.getLast?, rs.version ≤ q.1

theorem maxVersion_spec (rs : Session) : rs.minVersion ≤ rs.maxVersion ∧ 1 ≤ rs.maxVersion ∧
    ∀ n, rs.minVersion ≤ n → 1 ≤ n → rs.maxVersion ≤ n := by
  unfold Session.maxVersion rtrDefaultVersion
  split_ifs with h
  · exact ⟨Nat.le_refl _, Nat.le_of_lt h, fun n hn _ => hn⟩
  · exact ⟨Nat.le_of_not_lt h, Nat.le_refl _, fun n _ hn => hn⟩

theorem ConnLog.after_same (log : ConnLog) (resent : Bool) (hw : rs'.w = rs.w) :
    log.after false resent rs rs' = log := by
  unfold ConnLog.after
  rw [newQueries_of_length_le (Nat.le_of_eq (congrArg List.length hw))]
  simp

/-- Queries that are not sent again extend the log. -/
theorem chain_append_false {l : List (ℕ × Bool)} {l' : List ℕ}
    (h : l.IsChain fun a b => b.2 = true → b.1 < a.1) :
    (l ++ l'.map (·, false)).IsChain fun a b => b.2 = true → b.1 < a.1 := by
  refine List.isChain_append.mpr ⟨h, ?_, fun a _ b hb hflag => ?_⟩
  · exact List.Pairwise.isChain
      (List.pairwise_map.mpr (List.pairwise_of_forall fun _ _ h => nomatch h))
  · obtain ⟨v, -, rfl⟩ := List.mem_map.mp (List.mem_of_mem_head? hb)
    cases hflag

/-- A calm step that leaves a closed session closed keeps what the log says. -/
theorem VersionInv.calm (h : VersionInv log rs) (hc : Calm rs rs')
    (hstay : rs.state = .closed → rs'.state = .closed) :
    VersionInv (log.after false false rs rs') rs' := by
  have hne : rs'.state ≠ .closed → rs.state ≠ .closed := fun hs hcl => hs (hstay hcl)
  have hresends : (log.after false false rs rs').resends = log.resends := by
    unfold ConnLog.resends ConnLog.after
    simp [List.countP_map]
  refine ⟨fun hs => ?_, fun hs => hc.bufs hs h.bufs, fun hs => ?_, fun hs => ?_,
    chain_append_false h.chain, ?_, fun hs => ?_, fun hs => ?_⟩
  · rcases hc.closed hs with hcl | hconn
    · exact (Bool.not_eq_true _).mp fun hopen => by
        have hcl := h.closed hcl
        rw [hc.conn hopen] at hcl
        exact absurd hcl Bool.noConfusion
    · exact hconn
  · rw [hc.minVersion, hc.version]
    exact h.range (hne hs)
  · rw [hc.prevVersion, hc.version]
    exact h.prev (hne hs)
  · rw [hresends]
    exact h.resends
  · rw [hresends, hc.version]
    exact h.negotiation (hc.negotiation hs)
  · obtain ⟨q, hq, hle⟩ := h.last (hc.negotiation hs)
    rw [hc.version]
    unfold ConnLog.after
    simp only [Bool.false_eq_true, if_false]
    cases hnew : ((newQueries rs rs').map (·, false)).getLast? with
    | none => exact ⟨q, by simpa [List.getLast?_append, hnew] using hq, hle⟩
    | some q' =>
      obtain ⟨v, hv, rfl⟩ := List.mem_map.mp (List.mem_of_getLast? hnew)
      exact ⟨(v, false), by simp [List.getLast?_append, hnew], Nat.le_of_eq (hc.queries v hv).symm⟩

/-- The version falls, but not below the minimum. -/
theorem VersionInv.lowered (h : VersionInv log rs) (hneg : rs.state = .negotiation) {v : ℕ}
    (hv : v < rs.version) (hmin : rs.minVersion ≤ v) :
    VersionInv log (rs.lowerTo v) where
  closed := h.closed
  bufs := h.bufs
  range hs := ⟨hmin, Nat.le_of_lt (Nat.lt_of_lt_of_le hv (h.range hs).2)⟩
  prev _ heq := absurd heq (Nat.ne_of_gt hv)
  chain := h.chain
  resends := h.resends
  negotiation _ := Nat.le_trans (Nat.add_le_add_left (Nat.le_of_lt hv) _) (h.negotiation hneg)
  last _ := by
    obtain ⟨q, hq, hle⟩ := h.last hneg
    exact ⟨q, hq, Nat.le_trans (Nat.le_of_lt hv) hle⟩

/-- A version error: either the negotiation fails, or a query is sent again. -/
theorem rtrFsm_versionError (c : Cur) : rtrFsm c .unsuppProtoVersion =
    if c.rs.prevVersion = c.rs.version ∨ c.rs.version < c.rs.minVersion then
      .ok ((c.modify fun rs => { rs with version := rs.maxVersion }).sendError
        .unsuppProtocolVers [])
    else .ok (c.modify Session.sendQuery) := rfl

/-- The negotiation fails. -/
theorem VersionInv.failed (h : VersionInv log rs) {prev version : ℕ} (resent : Bool)
    (hmax : rs.maxVersion ≤ log.start)
    (hc : c.rs = { rs with prevVersion := prev, version := version })
    (hc' : (c.modify fun rs => { rs with version := rs.maxVersion }).sendError
      .unsuppProtocolVers [] = c') :
    VersionInv (log.after false resent rs c'.rs) c'.rs ∧ c'.rs.id = rs.id ∧
      c'.before = c.before ∧ c'.after = c.after := by
  have hrs : c'.rs = { ({ rs with prevVersion := prev, version := rs.maxVersion } : Session).send
      (.errorReport rs.maxVersion .unsuppProtocolVers []) |>.resetCache with state := .error } := by
    rw [← hc']
    unfold Cur.sendError Cur.recalc Cur.modify
    dsimp only
    rw [hc]
    rfl
  have hlog : log.after false resent rs c'.rs = log := by
    unfold ConnLog.after
    rw [newQueries_of_append (l := [.errorReport rs.maxVersion .unsuppProtocolVers []])
      (by rw [hrs]; rfl)]
    exact congrArg (ConnLog.mk log.start) (List.append_nil log.queries)
  refine ⟨?_, by rw [hrs]; rfl, by rw [← hc']; rfl, by rw [← hc']; rfl⟩
  rw [hlog, hrs]
  exact {
    closed := fun hs => nomatch hs
    bufs := h.bufs
    range := fun _ => ⟨(maxVersion_spec rs).1, hmax⟩
    prev := fun _ _ => (maxVersion_spec rs).2.1
    chain := h.chain
    resends := h.resends
    negotiation := fun hs => nomatch hs
    last := fun hs => nomatch hs }

/-- A query is sent again. -/
theorem VersionInv.resent (h : VersionInv log rs) (hneg : rs.state = .negotiation) {v : ℕ}
    (hv : v < rs.version) (hmin : rs.minVersion ≤ v) {q : OutPdu} (hq : q.queryVersion = some v) :
    VersionInv (log.after false true rs ((rs.lowerTo v).send q)) ((rs.lowerTo v).send q) := by
  obtain ⟨q₀, hq₀, hle⟩ := h.last hneg
  have hlog : log.after false true rs ((rs.lowerTo v).send q) =
      { log with queries := log.queries ++ [(v, true)] } := by
    unfold ConnLog.after
    rw [newQueries_of_append (l := [q]) rfl]
    simp [hq]
  have hresends : ConnLog.resends { log with queries := log.queries ++ [(v, true)] } =
      log.resends + 1 := by
    unfold ConnLog.resends
    simp [List.countP_append]
  have hbound : log.resends + 1 + v ≤ log.start := by
    have := h.negotiation hneg
    omega
  rw [hlog]
  exact {
    closed := h.closed
    bufs := h.bufs
    range := fun hs => ⟨hmin, Nat.le_of_lt (Nat.lt_of_lt_of_le hv (h.range hs).2)⟩
    prev := fun _ heq => absurd heq (Nat.ne_of_gt hv)
    chain := by
      refine List.isChain_append.mpr ⟨h.chain, List.isChain_singleton _, fun a ha b hb _ => ?_⟩
      obtain rfl : a = q₀ := Option.some.inj (ha.symm.trans hq₀)
      obtain rfl : (v, true) = b := Option.some.inj hb
      exact Nat.lt_of_lt_of_le hv hle
    resends := by
      rw [hresends]
      exact Nat.le_trans (Nat.le_add_right _ v) hbound
    negotiation := fun _ => by
      rw [hresends]
      exact hbound
    last := fun _ => ⟨(v, true), by simp, Nat.le_refl v⟩ }

/-- A PDU is handled. -/
theorem VersionInv.process (h : VersionInv log c.rs) (hopen : c.rs.connOpen = true)
    (hok : pdu.type = .errorReport → ReportOk c.rs pdu) (hstep : rtrProcessMsg c pdu = .ok c') :
    VersionInv (log.after false pdu.versionError c.rs c'.rs) c'.rs ∧ c'.rs.id = c.rs.id ∧
      c'.before = c.before ∧ c'.after = c.after := by
  have hne : c.rs.state ≠ .closed := fun hs => by
    rw [h.closed hs] at hopen
    exact absurd hopen Bool.noConfusion
  have hcases := checkVersion_cases c.rs pdu
  cases hversion : pdu.versionError with
  | false =>
    have hc := handled_process hversion hstep
    have hsame : VersionInv log (checkVersion c.rs pdu).1 := by
      rcases hcases with ⟨hrs, -⟩ | ⟨hrs, hneg, hlt, hkind⟩
      · rwa [hrs]
      · rw [hrs]
        refine h.lowered hneg hlt ?_
        rcases hkind with ⟨htype, hlow⟩ | ⟨-, hmin⟩
        · -- a report below the minimum would have to be about the version
          by_contra hmin
          obtain ⟨hcode, hcomplete⟩ := (hok htype).1 hlow (Nat.lt_of_not_le hmin)
          unfold Pdu.versionError at hversion
          exact of_decide_eq_false hversion ⟨htype, hcode, hcomplete⟩
        · exact hmin
    have hfields : (checkVersion c.rs pdu).1.id = c.rs.id ∧
        (checkVersion c.rs pdu).1.state = c.rs.state ∧ (checkVersion c.rs pdu).1.w = c.rs.w := by
      rcases hcases with ⟨hrs, -⟩ | ⟨hrs, -⟩
      · rw [hrs]
        exact ⟨rfl, rfl, rfl⟩
      · rw [hrs]
        exact ⟨rfl, rfl, rfl⟩
    have hinv := hsame.calm hc.rs fun hs => absurd (hfields.2.1.symm.trans hs) hne
    have hlog : log.after false false c.rs c'.rs =
        log.after false false (checkVersion c.rs pdu).1 c'.rs := by
      unfold ConnLog.after newQueries
      rw [hfields.2.2]
    rw [hlog]
    exact ⟨hinv, hc.rs.id.trans hfields.1, hc.before, hc.after⟩
  | true =>
    obtain ⟨htype, hcode, hcomplete⟩ := of_decide_eq_true hversion
    rw [rtrProcessMsg_versionError hversion, rtrFsm_versionError] at hstep
    have hrange := h.range hne
    rcases hcases with ⟨hrs, hlow⟩ | ⟨hrs, hneg, hlt, -⟩
    · -- the version was never lowered, so the negotiation fails
      have hprev := ((hok htype).2 hcode hcomplete).resolve_left (hlow htype)
      rw [hrs, if_pos (Or.inl hprev)] at hstep
      have hmax : c.rs.maxVersion ≤ log.start := (maxVersion_spec c.rs).2.2 _
        (Nat.le_trans hrange.1 hrange.2) (Nat.le_trans (h.prev hne hprev) hrange.2)
      exact h.failed (c := { c with rs := c.rs }) true hmax rfl (Except.ok.inj hstep)
    · rw [hrs] at hstep
      dsimp only at hstep
      split_ifs at hstep with hfails
      · -- the version was lowered below the minimum
        have hmin : pdu.version.toNat < c.rs.minVersion := by
          rcases hfails with heq | hmin
          · exact absurd heq (Nat.ne_of_gt hlt)
          · exact hmin
        have hpos : 1 ≤ c.rs.minVersion := Nat.lt_of_le_of_lt (Nat.zero_le _) hmin
        have hmax : c.rs.maxVersion ≤ log.start := (maxVersion_spec c.rs).2.2 _
          (Nat.le_trans hrange.1 hrange.2) (Nat.le_trans hpos (Nat.le_trans hrange.1 hrange.2))
        exact h.failed (c := { c with rs := c.rs.lowerTo pdu.version.toNat }) true hmax rfl
          (Except.ok.inj hstep)
      · obtain rfl := Except.ok.inj hstep
        obtain ⟨q, hsend, hq⟩ := sendQuery_eq (c.rs.lowerTo pdu.version.toNat)
        have hmin : c.rs.minVersion ≤ pdu.version.toNat :=
          Nat.le_of_not_lt fun hlt => hfails (Or.inr hlt)
        have hinv := h.resent hneg hlt hmin hq
        rw [← hsend] at hinv
        have hid : (c.rs.lowerTo pdu.version.toNat).sendQuery.id = c.rs.id := by
          rw [hsend]
          rfl
        exact ⟨hinv, hid, rfl, rfl⟩

/-- A session that is about to send its first query. -/
def Session.opened (rs : Session) : Session :=
  { rs.timerStop .retry with connOpen := true, state := .negotiation }

/-- A new connection: the version starts anew, unless a negotiation goes on. -/
theorem rtrOpen_cases (h : rtrOpen c = .ok c') :
    c'.before = c.before ∧ c'.after = c.after ∧ ∃ rs : Session, c'.rs = rs.opened.sendQuery ∧
      rs.id = c.rs.id ∧ (rs.version = rs.maxVersion ∨ c.rs.state = .negotiation ∧
        rs.minVersion = c.rs.minVersion ∧ rs.version = c.rs.version ∧
        rs.prevVersion = c.rs.prevVersion) := by
  have hopened : ∀ c₁ : Cur, Handled c c₁ → (c₁.rs.state = .closed ∨ c.rs.state = .negotiation) →
      rtrFsm ((if c₁.rs.state = .closed then
        c₁.modify fun rs => { rs with version := rs.maxVersion, prevVersion := rs.maxVersion }
        else c₁).modify fun rs => { rs with connOpen := true }) .conOpen = .ok c' →
      c'.before = c.before ∧ c'.after = c.after ∧ ∃ rs : Session, c'.rs = rs.opened.sendQuery ∧
        rs.id = c.rs.id ∧ (rs.version = rs.maxVersion ∨ c.rs.state = .negotiation ∧
          rs.minVersion = c.rs.minVersion ∧ rs.version = c.rs.version ∧
          rs.prevVersion = c.rs.prevVersion) := by
    intro c₁ hc₁ hstate hfsm
    split_ifs at hfsm with hclosed
    · obtain rfl := Except.ok.inj hfsm
      exact ⟨hc₁.before, hc₁.after,
        { c₁.rs with version := c₁.rs.maxVersion, prevVersion := c₁.rs.maxVersion },
        rfl, hc₁.rs.id, Or.inl rfl⟩
    · obtain rfl := Except.ok.inj hfsm
      exact ⟨hc₁.before, hc₁.after, c₁.rs, rfl, hc₁.rs.id, Or.inr ⟨hstate.resolve_left hclosed,
        hc₁.rs.minVersion, hc₁.rs.version, hc₁.rs.prevVersion⟩⟩
  unfold rtrOpen at h
  split_ifs at h with hstate
  · obtain ⟨c₁, hc₁, hrest⟩ := except_bind_ok h
    have hclose := @handled_fsm _ _ .conClose (by simp) (by simp) hc₁
    refine hopened c₁ hclose (Or.inl ?_) hrest
    exact (Closed.conClose_rs hc₁).2.2.resolve_right fun hneg =>
      hstate.2 (hclose.rs.negotiation hneg)
  · rw [not_and_or, not_not, not_not] at hstate
    exact hopened c (Handled.refl c) hstate h

/-- A connection is opened. -/
theorem VersionInv.open (h : VersionInv log c.rs) (hstep : rtrOpen c = .ok c') :
    VersionInv (log.after true false c.rs c'.rs) c'.rs ∧ c'.rs.id = c.rs.id ∧
      c'.before = c.before ∧ c'.after = c.after := by
  obtain ⟨hbefore, hafter, rs, hrs, hid, hversion⟩ := rtrOpen_cases hstep
  obtain ⟨q, hq, hqv⟩ := sendQuery_eq rs.opened
  have hlog : log.after true false c.rs c'.rs = ⟨rs.version, [(rs.version, false)]⟩ := by
    unfold ConnLog.after
    rw [hrs, hq]
    simp [Session.send, hqv, Session.opened, Session.timerStop]
  have hrange : rs.minVersion ≤ rs.version ∧ (rs.prevVersion = rs.version → 1 ≤ rs.version) := by
    rcases hversion with hmax | ⟨hneg, hmin, hversion, hprev⟩
    · rw [hmax]
      exact ⟨(maxVersion_spec rs).1, fun _ => (maxVersion_spec rs).2.1⟩
    · have hne : c.rs.state ≠ .closed := fun hs => nomatch hs.symm.trans hneg
      rw [hmin, hversion, hprev]
      exact ⟨(h.range hne).1, h.prev hne⟩
  rw [hlog, hrs, hq]
  refine ⟨?_, hid, hbefore, hafter⟩
  exact {
    closed := fun hs => nomatch hs
    bufs := fun hs => nomatch hs
    range := fun _ => ⟨hrange.1, Nat.le_refl _⟩
    prev := fun _ => hrange.2
    chain := List.isChain_singleton _
    resends := Nat.zero_le _
    negotiation := fun _ => Nat.le_of_eq (Nat.zero_add _)
    last := fun _ => ⟨_, rfl, Nat.le_refl _⟩ }

/-! ## The engine -/

/-- Every session has an id of its own and is as its log says. -/
structure WatchInv (w : Watched) : Prop where
  ids : (w.engine.rtrs.map Session.id).Nodup
  sessions : ∀ rs ∈ w.engine.rtrs, VersionInv (w.log rs.id) rs

variable {w : Watched} {i : Input} {e e' : Engine}

theorem get_of_mem (hnodup : (e.rtrs.map Session.id).Nodup) (hmem : rs ∈ e.rtrs) :
    e.get rs.id = some rs := by
  unfold Engine.get
  generalize e.rtrs = l at *
  induction l with
  | nil => cases hmem
  | cons x l ih =>
    rw [List.map_cons, List.nodup_cons] at hnodup
    rcases List.mem_cons.mp hmem with rfl | hmem
    · simp
    · have hne : x.id ≠ rs.id := fun heq => hnodup.1 (heq ▸ List.mem_map_of_mem hmem)
      rw [List.find?_cons_of_neg (by simpa using hne)]
      exact ih hnodup.2 hmem

/-- The sessions are new, or come from one that was there. -/
theorem WatchInv.of_sessions (h : WatchInv w) (hids : (e'.rtrs.map Session.id).Nodup)
    (hs : ∀ rs' ∈ e'.rtrs, (w.engine.get rs'.id = none ∧ VersionInv {} rs') ∨
      ∃ rs ∈ w.engine.rtrs, rs.id = rs'.id ∧ VersionInv ((w.log rs.id).after
        (w.engine.opens i rs.id) ((w.engine.handles i rs.id).any Pdu.versionError) rs rs') rs') :
    WatchInv (w.next i e') := by
  refine ⟨hids, fun rs' hmem => ?_⟩
  have hget' := get_of_mem hids hmem
  unfold Watched.next
  dsimp only
  rw [hget']
  rcases hs rs' hmem with ⟨hnone, hinv⟩ | ⟨rs, hrs, hid, hinv⟩
  · rw [hnone]
    exact hinv
  · rw [← hid, get_of_mem h.ids hrs]
    exact hinv

/-- Nothing was sent. -/
theorem VersionInv.after {resent : Bool} (h : VersionInv log rs') (hw : rs'.w = rs.w) :
    VersionInv (log.after false resent rs rs') rs' := by
  rwa [ConnLog.after_same _ _ hw]

/-- A session that is as before. -/
theorem WatchInv.same (h : WatchInv w) (hmem : rs ∈ w.engine.rtrs)
    (hopens : w.engine.opens i rs.id = false)
    (resent : Bool) :
    VersionInv ((w.log rs.id).after (w.engine.opens i rs.id) resent rs rs) rs := by
  rw [hopens, ConnLog.after_same _ _ rfl]
  exact h.sessions rs hmem

theorem focus_spec {id : ℕ} (h : e.focus id = some c) :
    e.rtrs = c.before ++ c.rs :: c.after ∧ c.rs.id = id := by
  have hsplit := List.takeWhile_append_dropWhile (p := fun rs : Session => decide (rs.id ≠ id))
    (l := e.rtrs)
  have hhead := List.head?_dropWhile_not (fun rs : Session => decide (rs.id ≠ id)) e.rtrs
  unfold Engine.focus at h
  cases hrest : e.rtrs.dropWhile (fun rs => decide (rs.id ≠ id)) with
  | nil =>
    rw [hrest] at h
    cases h
  | cons rs after =>
    rw [hrest] at h hsplit hhead
    obtain rfl := Option.some.inj h
    exact ⟨hsplit.symm, by simpa using hhead⟩

theorem id_ne_of_focus {id : ℕ} (h : e.focus id = none) (hmem : rs ∈ e.rtrs) : rs.id ≠ id := by
  intro heq
  unfold Engine.focus at h
  cases hrest : e.rtrs.dropWhile (fun rs => decide (rs.id ≠ id)) with
  | nil =>
    have hall := List.dropWhile_eq_nil_iff.mp hrest rs hmem
    exact absurd heq (by simpa using hall)
  | cons x after =>
    rw [hrest] at h
    cases h

theorem opens_of_ne {id id' : ℕ} (hne : id' ≠ id) : e.opens (.socketSetup id) id' = false := by
  simp [Engine.opens, hne.symm]

/-- One session was handled. -/
theorem WatchInv.put {d : Cur} (h : WatchInv w) {id : ℕ} (hfocus : w.engine.focus id = some c)
    (hid : d.rs.id = c.rs.id) (hbefore : d.before = c.before) (hafter : d.after = c.after)
    (he' : e'.rtrs = d.before ++ d.rs :: d.after)
    (hothers : ∀ id' ≠ id, w.engine.opens i id' = false)
    (hinv : VersionInv ((w.log id).after (w.engine.opens i id)
      ((w.engine.handles i id).any Pdu.versionError) c.rs d.rs) d.rs) : WatchInv (w.next i e') := by
  obtain ⟨hsplit, hcid⟩ := focus_spec hfocus
  rw [hbefore, hafter] at he'
  have hids : e'.rtrs.map Session.id = w.engine.rtrs.map Session.id := by
    rw [he', hsplit, List.map_append, List.map_append, List.map_cons, List.map_cons, hid]
  have hnodup := h.ids
  refine h.of_sessions (hids ▸ hnodup) fun rs' hmem => Or.inr ?_
  have hother : ∀ rs ∈ c.before ++ c.after, rs ∈ w.engine.rtrs ∧ rs.id ≠ id := by
    intro rs hrs
    rw [hsplit, List.map_append, List.map_cons] at hnodup
    refine ⟨?_, fun heq => ?_⟩
    · rw [hsplit]
      rcases List.mem_append.mp hrs with hrs | hrs
      · exact List.mem_append_left _ hrs
      · exact List.mem_append_right _ (List.mem_cons_of_mem _ hrs)
    · have hmiddle := (List.nodup_middle.mp hnodup)
      rw [List.nodup_cons, ← List.map_append] at hmiddle
      exact hmiddle.1 (List.mem_map.mpr ⟨rs, hrs, heq.trans hcid.symm⟩)
  have hsame : ∀ rs ∈ c.before ++ c.after, ∃ rs₀ ∈ w.engine.rtrs, rs₀.id = rs.id ∧
      VersionInv ((w.log rs₀.id).after (w.engine.opens i rs₀.id)
        ((w.engine.handles i rs₀.id).any Pdu.versionError) rs₀ rs) rs := by
    intro rs hrs
    obtain ⟨hrs, hne⟩ := hother rs hrs
    exact ⟨rs, hrs, rfl, h.same hrs (hothers rs.id hne) _⟩
  rw [he'] at hmem
  rcases List.mem_append.mp hmem with hmem | hmem
  · exact hsame rs' (List.mem_append_left _ hmem)
  · rcases List.mem_cons.mp hmem with rfl | hmem
    · refine ⟨c.rs, by rw [hsplit]; simp, hid.symm, ?_⟩
      rw [hcid]
      exact hinv
    · exact hsame rs' (List.mem_append_right _ hmem)

/-- A step of a session that is not closed by it, and that is not about a PDU. -/
theorem WatchInv.withSession (h : WatchInv w) (hopens : ∀ id, w.engine.opens i id = false)
    (hhandles : ∀ id, w.engine.handles i id = none) {id : ℕ} {f : Cur → Except RtrFatal Cur}
    (hf : ∀ c c', w.engine.focus id = some c → f c = .ok c' →
      Handled c c' ∧ (c.rs.state = .closed → c'.rs.state = .closed))
    (hstep : w.engine.withSession id f = .ok e') : WatchInv (w.next i e') := by
  unfold Engine.withSession at hstep
  cases hfocus : w.engine.focus id with
  | none =>
    rw [hfocus] at hstep
    obtain rfl := Except.ok.inj hstep
    exact h.of_sessions h.ids fun rs hmem => Or.inr ⟨rs, hmem, rfl, h.same hmem (hopens _) _⟩
  | some c =>
    rw [hfocus] at hstep
    obtain ⟨c', hc', rfl⟩ := except_map_ok hstep
    obtain ⟨hhandled, hstay⟩ := hf c c' hfocus hc'
    obtain ⟨hsplit, hcid⟩ := focus_spec hfocus
    refine h.put hfocus hhandled.rs.id hhandled.before hhandled.after rfl (fun _ _ => hopens _) ?_
    rw [hopens, hhandles, ← hcid]
    exact (h.sessions c.rs (by rw [hsplit]; simp)).calm hhandled.rs hstay

/-- Events that leave a closed session closed. -/
theorem fsm_closed (hstate : c.rs.state = .closed)
    (hevent : event = .start ∨ event = .conClose ∨ ∃ t : Timer, event = t.event)
    (h : rtrFsm c event = .ok c') : c'.rs.state = .closed := by
  have hclose : ∀ reset, c.conClose reset = .ok c' → c'.rs.state = .closed := by
    intro reset h
    refine (Closed.conClose_rs h).2.2.resolve_right fun hneg => ?_
    rw [(handled_conClose h).rs.negotiation hneg] at hstate
    cases hstate
  have hretry : c.retry = .ok c' → c'.rs.state = .closed := by
    intro h
    unfold Cur.retry at h
    rw [hstate] at h
    obtain rfl := Except.ok.inj h
    exact hstate
  rcases hevent with rfl | rfl | ⟨t, rfl⟩
  · exact hretry h
  · exact hclose false h
  · cases t with
    | refresh =>
      obtain rfl := Except.ok.inj h
      exact hstate
    | retry => exact hretry h
    | expire =>
      obtain rfl := Except.ok.inj h
      exact hstate
    | active =>
      rw [(releaseLock_eq h).1]
      exact hstate

theorem handled_timer {t : Timer} (h : rtrTimer t c = .ok c') :
    Handled c c' ∧ (c.rs.state = .closed → c'.rs.state = .closed) := by
  unfold rtrTimer at h
  split_ifs at h
  · have hstop : Handled c (c.modify (·.timerStop t)) :=
      handled_modify c rfl rfl rfl rfl rfl rfl rfl rfl
    refine ⟨hstop.trans rfl (handled_fsm ?_ ?_ h), fun hs =>
      fsm_closed (c := c.modify (·.timerStop t)) hs (Or.inr (Or.inr ⟨t, rfl⟩)) h⟩
    · cases t <;> exact fun h => nomatch h
    · cases t <;> exact fun h => nomatch h
  · obtain rfl := Except.ok.inj h
    exact ⟨Handled.refl c, fun h => h⟩

/-- PDUs that were written. -/
theorem handled_write {n : ℕ} (h : rtrWrite n c = .ok c') :
    Handled c c' ∧ (c.rs.state = .closed → c'.rs.state = .closed) := by
  have hwrite : Handled c (c.modify fun rs => { rs with w := rs.w.drop n }) :=
    ⟨⟨rfl, rfl, rfl, rfl, fun h => h, Or.inl, fun h => h, fun hs hb => hb hs,
      queries_of_length_le (by simp [Cur.modify])⟩, rfl, rfl⟩
  unfold rtrWrite at h
  dsimp only at h
  split_ifs at h with hempty
  · have hclose := handled_conClose h
    refine ⟨⟨?_, hclose.before, hclose.after⟩, fun hs => ?_⟩
    · refine ⟨hclose.rs.id, hclose.rs.minVersion, hclose.rs.version, hclose.rs.prevVersion,
        hclose.rs.negotiation, hclose.rs.closed, hclose.rs.conn, hclose.rs.bufs, ?_⟩
      refine queries_of_length_le (Nat.le_trans (conClose_w h) ?_)
      exact (List.drop_sublist n c.rs.w).length_le
    · exact nomatch hempty.1.symm.trans hs
  · obtain rfl := Except.ok.inj h
    exact ⟨hwrite, fun h => h⟩

/-- Sessions that are there afterwards were there before. -/
theorem WatchInv.of_sublist (h : WatchInv w) (hopens : ∀ id, w.engine.opens i id = false)
    (hsub : e'.rtrs.Sublist w.engine.rtrs) : WatchInv (w.next i e') := by
  refine h.of_sessions (h.ids.sublist (hsub.map _)) fun rs hmem => Or.inr ?_
  have hmem := hsub.subset hmem
  exact ⟨rs, hmem, rfl, h.same hmem (hopens _) _⟩

theorem rtrConfigMerge_sublist {sh : Shared} {kept rest : List Session}
    {r : Shared × List Session} (h : rtrConfigMerge sh kept rest = .ok r) :
    r.2.Sublist (kept ++ rest) := by
  induction rest generalizing sh kept with
  | nil =>
    obtain rfl := Except.ok.inj h
    rw [List.append_nil]
  | cons rs rest ih =>
    rw [rtrConfigMerge] at h
    split_ifs at h
    · obtain ⟨c, -, hrest⟩ := except_bind_ok h
      exact (ih hrest).trans ((List.sublist_cons_self rs rest).append_left kept)
    · have hsub := ih h
      rwa [List.append_assoc, List.singleton_append] at hsub

/-- Only the mark of a reload is changed. -/
theorem WatchInv.mark (h : WatchInv w) (hopens : ∀ id, w.engine.opens i id = false)
    (he : e'.rtrs = w.engine.rtrs.map fun rs => { rs with reconfAction := .delete }) :
    WatchInv (w.next i e') := by
  have hids : e'.rtrs.map Session.id = w.engine.rtrs.map Session.id := by
    rw [he, List.map_map]
    rfl
  refine h.of_sessions (hids ▸ h.ids) fun rs' hmem => Or.inr ?_
  rw [he] at hmem
  obtain ⟨rs, hrs, rfl⟩ := List.mem_map.mp hmem
  refine ⟨rs, hrs, rfl, ?_⟩
  have hinv := h.sessions rs hrs
  rw [hopens]
  exact VersionInv.after ⟨hinv.closed, hinv.bufs, hinv.range, hinv.prev, hinv.chain, hinv.resends,
    hinv.negotiation, hinv.last⟩ rfl

/-- A session of the configuration: one that is kept, or a new one. -/
theorem WatchInv.rtrConfig (h : WatchInv w) {id minVersion : ℕ}
    (hok : ∀ rs ∈ w.engine.get id, rs.state = .closed ∨ minVersion ≤ rs.version)
    (hopens : ∀ id, w.engine.opens i id = false)
    (hstep : w.engine.rtrConfig id minVersion = .ok e') : WatchInv (w.next i e') := by
  unfold Engine.rtrConfig at hstep
  split_ifs at hstep with hfound
  · unfold Engine.withSession at hstep
    cases hfocus : w.engine.focus id with
    | none =>
      rw [hfocus] at hfound
      cases hfound
    | some c =>
      rw [hfocus] at hstep
      obtain rfl := Except.ok.inj hstep
      obtain ⟨hsplit, hcid⟩ := focus_spec hfocus
      have hmem : c.rs ∈ w.engine.rtrs := by
        rw [hsplit]
        simp
      have hinv := h.sessions c.rs hmem
      have hmin := hok c.rs (hcid ▸ get_of_mem h.ids hmem)
      refine h.put hfocus (d := c.modify fun rs =>
        { rs with minVersion := minVersion, reconfAction := .keep }) rfl rfl rfl rfl
        (fun _ _ => hopens _) ?_
      rw [hopens, ← hcid]
      exact VersionInv.after ⟨hinv.closed, hinv.bufs,
        fun hs => ⟨hmin.resolve_left hs, (hinv.range hs).2⟩, hinv.prev, hinv.chain, hinv.resends,
        hinv.negotiation, hinv.last⟩ rfl
  · have hnone : ∀ rs ∈ w.engine.rtrs, rs.id ≠ id := fun rs hmem =>
      id_ne_of_focus (Option.not_isSome_iff_eq_none.mp hfound) hmem
    have hnew : VersionInv {} (newSession id minVersion) :=
      ⟨fun _ => rfl, fun _ => rfl, fun hs => absurd rfl hs, fun hs => absurd rfl hs,
        List.isChain_nil, Nat.le_refl _, (fun hs => nomatch hs), fun hs => nomatch hs⟩
    have hget : w.engine.get id = none :=
      List.find?_eq_none.mpr fun rs hmem => by simpa using hnone rs hmem
    have hids₁ : ((w.engine.rtrs ++ [newSession id minVersion]).map Session.id).Nodup := by
      rw [List.map_append]
      refine List.nodup_append.mpr ⟨h.ids, List.nodup_singleton _, fun a ha b hb heq => ?_⟩
      obtain ⟨rs, hrs, rfl⟩ := List.mem_map.mp ha
      obtain rfl : b = id := List.mem_singleton.mp hb
      exact hnone rs hrs heq
    have hsessions : ∀ rs ∈ w.engine.rtrs ++ [newSession id minVersion],
        (w.engine.get rs.id = none ∧ VersionInv {} rs) ∨ ∃ rs₀ ∈ w.engine.rtrs, rs₀.id = rs.id ∧
          VersionInv ((w.log rs₀.id).after (w.engine.opens i rs₀.id)
            ((w.engine.handles i rs₀.id).any Pdu.versionError) rs₀ rs) rs := by
      intro rs hmem
      rcases List.mem_append.mp hmem with hmem | hmem
      · exact Or.inr ⟨rs, hmem, rfl, h.same hmem (hopens _) _⟩
      · obtain rfl := List.mem_singleton.mp hmem
        exact Or.inl ⟨hget, hnew⟩
    unfold Engine.withSession at hstep
    cases hfocus : ({ w.engine with rtrs := w.engine.rtrs ++ [newSession id minVersion] } :
        Engine).focus id with
    | none =>
      rw [hfocus] at hstep
      obtain rfl := Except.ok.inj hstep
      exact h.of_sessions hids₁ hsessions
    | some c =>
      rw [hfocus] at hstep
      obtain ⟨c', hc', rfl⟩ := except_map_ok hstep
      obtain ⟨hsplit, hcid⟩ := focus_spec hfocus
      dsimp only at hsplit
      have hc := handled_fsm (by simp) (by simp) hc'
      have hrs : c.rs = newSession id minVersion := by
        have hmem : c.rs ∈ w.engine.rtrs ++ [newSession id minVersion] := by
          rw [hsplit]
          simp
        rcases List.mem_append.mp hmem with hmem | hmem
        · exact absurd hcid (hnone c.rs hmem)
        · exact List.mem_singleton.mp hmem
      have hrtrs : (({ w.engine with rtrs := w.engine.rtrs ++ [newSession id minVersion] } :
          Engine).put c').rtrs = c.before ++ c'.rs :: c.after := by
        unfold Engine.put
        rw [hc.before, hc.after]
      refine h.of_sessions ?_ fun rs' hmem => ?_
      · rw [hrtrs, List.map_append, List.map_cons, hc.rs.id, ← List.map_cons, ← List.map_append,
          ← hsplit]
        exact hids₁
      · rw [hrtrs] at hmem
        have hcases : rs' = c'.rs ∨ rs' ∈ w.engine.rtrs ++ [newSession id minVersion] := by
          rw [hsplit]
          simp only [List.mem_append, List.mem_cons] at hmem ⊢
          tauto
        rcases hcases with rfl | hmem
        · have hinv := hnew.calm (hrs ▸ hc.rs) fun hs =>
            fsm_closed (by rw [hrs]; exact hs) (Or.inl rfl) hc'
          have hw : c'.rs.w = (newSession id minVersion).w := by
            change c.retry = .ok c' at hc'
            unfold Cur.retry at hc'
            rw [hrs] at hc'
            obtain rfl := Except.ok.inj hc'
            change c.rs.w = _
            rw [hrs]
          rw [ConnLog.after_same _ _ hw] at hinv
          exact Or.inl ⟨by rw [hc.rs.id, hcid, hget], hinv⟩
        · exact hsessions rs' hmem

/-- Nothing is opened while the PDUs of a session are read. -/
theorem opens_of_reading {id id' : ℕ} (hread : w.engine.reading = some id) :
    w.engine.opens i id' = false := by
  unfold Engine.opens
  split
  · rw [hread]
    rfl
  · rfl

/-- The sessions stay as they are. -/
theorem WatchInv.stay (h : WatchInv w) (hopens : ∀ id, w.engine.opens i id = false)
    (he : e'.rtrs = w.engine.rtrs) : WatchInv (w.next i e') := h.of_sublist hopens (by rw [he])

/-- One PDU of the session that is read. -/
theorem WatchInv.process (h : WatchInv w) (hok : VersionsOk w .process) {id : ℕ}
    (hread : w.engine.reading = some id) (hstep : w.engine.process id = .ok e') :
    WatchInv (w.next .process e') := by
  have hopens : ∀ id', w.engine.opens .process id' = false := fun _ => opens_of_reading hread
  unfold Engine.process at hstep
  cases hfocus : w.engine.focus id with
  | none =>
    rw [hfocus] at hstep
    obtain rfl := Except.ok.inj hstep
    exact h.stay hopens rfl
  | some c =>
    rw [hfocus] at hstep
    dsimp only at hstep
    cases hbufs : c.rs.rbufs with
    | nil =>
      rw [hbufs] at hstep
      obtain rfl := Except.ok.inj hstep
      exact h.stay hopens rfl
    | cons pdu rest =>
      rw [hbufs] at hstep
      obtain ⟨c', hc', rfl⟩ := except_map_ok hstep
      obtain ⟨hsplit, hcid⟩ := focus_spec hfocus
      have hmem : c.rs ∈ w.engine.rtrs := by
        rw [hsplit]
        simp
      have hget : w.engine.get id = some c.rs := hcid ▸ get_of_mem h.ids hmem
      have hinv := h.sessions c.rs hmem
      -- a closed connection has no PDUs left to read
      have hopen : c.rs.connOpen = true := by
        by_contra hconn
        rw [hinv.bufs ((Bool.not_eq_true _).mp hconn)] at hbufs
        cases hbufs
      have hhandles : w.engine.handles .process id = some pdu := by
        unfold Engine.handles
        dsimp only
        rw [if_pos hread, hget, Option.bind_some, hbufs]
        rfl
      have hinv' : VersionInv (w.log c.rs.id) { c.rs with rbufs := rest } :=
        ⟨hinv.closed, (fun hconn => nomatch hopen.symm.trans hconn), hinv.range, hinv.prev,
          hinv.chain, hinv.resends, hinv.negotiation, hinv.last⟩
      have hreport : pdu.type = .errorReport → ReportOk { c.rs with rbufs := rest } pdu :=
        fun htype => hok id hread c.rs hget pdu (by rw [hbufs]; rfl) htype
      obtain ⟨hres, hid, hbefore, hafter⟩ := VersionInv.process
        (c := c.modify fun rs => { rs with rbufs := rest }) hinv' hopen hreport hc'
      refine h.put hfocus hid hbefore hafter rfl (fun _ _ => hopens _) ?_
      rw [hopens, hhandles, ← hcid]
      exact hres

/-- The end of a reload. -/
theorem WatchInv.reconfDone (h : WatchInv w) {now : ℕ} (hopens : ∀ id, w.engine.opens i id = false)
    (hstep : w.engine.reconfDone now = .ok e') : WatchInv (w.next i e') := by
  unfold Engine.reconfDone at hstep
  dsimp only at hstep
  cases hconf : w.engine.nconf with
  | none =>
    rw [hconf] at hstep
    obtain rfl := Except.ok.inj hstep
    exact h.stay hopens rfl
  | some nconf =>
    rw [hconf] at hstep
    obtain ⟨r, hmerge, hret⟩ := except_bind_ok hstep
    obtain rfl := Except.ok.inj hret
    exact h.of_sublist hopens (rtrConfigMerge_sublist hmerge)

/-- A connection is opened. It is the only event that starts a new list of queries. -/
theorem WatchInv.socketSetup (h : WatchInv w) {id : ℕ} (hread : w.engine.reading = none)
    (hstep : w.engine.withSession id rtrOpen = .ok e') :
    WatchInv (w.next (.socketSetup id) e') := by
  unfold Engine.withSession at hstep
  cases hfocus : w.engine.focus id with
  | none =>
    rw [hfocus] at hstep
    obtain rfl := Except.ok.inj hstep
    exact h.of_sessions h.ids fun rs hmem => Or.inr ⟨rs, hmem, rfl,
      h.same hmem (opens_of_ne (id_ne_of_focus hfocus hmem)) _⟩
  | some c =>
    rw [hfocus] at hstep
    obtain ⟨c', hc', rfl⟩ := except_map_ok hstep
    obtain ⟨hsplit, hcid⟩ := focus_spec hfocus
    have hinv := h.sessions c.rs (by rw [hsplit]; simp)
    obtain ⟨hres, hid, hbefore, hafter⟩ := hinv.open hc'
    have hopens : w.engine.opens (.socketSetup id) id = true := by simp [Engine.opens, hread]
    refine h.put hfocus hid hbefore hafter rfl (fun id' hne => opens_of_ne hne) ?_
    rw [hopens, ← hcid]
    exact hres

/-- PDUs arrive, the last of them possibly with a header that cannot be read. -/
theorem WatchInv.read (h : WatchInv w) {id : ℕ} {pdus : List Pdu} {bad : Option (List UInt8)}
    (hstep : w.engine.idleStep (.read id pdus bad) = .ok e') :
    WatchInv (w.next (.read id pdus bad) e') := by
  unfold Engine.idleStep at hstep
  dsimp only at hstep
  cases hfocus : w.engine.focus id with
  | none =>
    rw [hfocus] at hstep
    obtain rfl := Except.ok.inj hstep
    exact h.stay (fun _ => rfl) rfl
  | some c =>
    rw [hfocus] at hstep
    dsimp only at hstep
    by_cases hpoll : c.rs.pollsIn = true
    · rw [if_pos hpoll] at hstep
      obtain ⟨c', hc', rfl⟩ := except_map_ok hstep
      obtain ⟨hsplit, hcid⟩ := focus_spec hfocus
      have hinv := h.sessions c.rs (by rw [hsplit]; simp)
      have hopen : c.rs.connOpen = true := (Bool.and_eq_true_iff.mp hpoll).1
      have hinv' : VersionInv (w.log c.rs.id) { c.rs with rbufs := c.rs.rbufs ++ pdus } :=
        ⟨hinv.closed, (fun hconn => nomatch hopen.symm.trans hconn), hinv.range, hinv.prev,
          hinv.chain, hinv.resends, hinv.negotiation, hinv.last⟩
      have hne : c.rs.state ≠ .closed := fun hs => nomatch (hinv.closed hs).symm.trans hopen
      obtain rfl := Except.ok.inj hc'
      refine h.put hfocus ?_ ?_ ?_ rfl (fun _ _ => rfl) ?_
      · cases bad <;> rfl
      · cases bad <;> rfl
      · cases bad <;> rfl
      · change VersionInv ((w.log id).after false false c.rs _) _
        rw [← hcid]
        cases bad with
        | none => exact hinv'.after rfl
        | some hdr =>
          -- the error report that is sent is no query
          exact hinv'.calm (handled_sendError (c.modify fun rs =>
            { rs with rbufs := rs.rbufs ++ pdus }) .corruptData hdr).rs fun hs => absurd hs hne
    · rw [if_neg hpoll] at hstep
      obtain rfl : w.engine = e' := Except.ok.inj hstep
      exact h.stay (fun _ => rfl) rfl

/-- A step while no session is read. -/
theorem WatchInv.idleStep (h : WatchInv w) (hok : VersionsOk w i)
    (hread : w.engine.reading = none) (hstep : w.engine.idleStep i = .ok e') :
    WatchInv (w.next i e') := by
  cases i with
  | reconfConf =>
    obtain rfl := Except.ok.inj hstep
    exact h.mark (fun _ => rfl) rfl
  | roaItem roa expires =>
    obtain rfl := Except.ok.inj hstep
    exact h.stay (fun _ => rfl) rfl
  | aspaItem aspa expires =>
    obtain rfl := Except.ok.inj hstep
    exact h.stay (fun _ => rfl) rfl
  | rtrConfig id minVersion => exact h.rtrConfig (hok hread) (fun _ => rfl) hstep
  | reconfDone now => exact h.reconfDone (fun _ => rfl) hstep
  | socketSetup id => exact h.socketSetup hread hstep
  | expire now =>
    obtain rfl := Except.ok.inj hstep
    refine h.stay (fun _ => rfl) ?_
    unfold Engine.expireStatic
    dsimp only
    split_ifs
    all_goals rfl
  | hangup id =>
    refine h.withSession (fun _ => rfl) (fun _ => rfl) (fun c c' _ hc' => ?_) hstep
    exact ⟨handled_fsm (by simp) (by simp) hc', fun hs => fsm_closed hs (Or.inr (Or.inl rfl)) hc'⟩
  | write id n =>
    exact h.withSession (fun _ => rfl) (fun _ => rfl) (fun c c' _ hc' => handled_write hc') hstep
  | readError id =>
    refine h.withSession (fun _ => rfl) (fun _ => rfl) (fun c c' _ hc' => ?_) hstep
    split_ifs at hc'
    · obtain rfl := Except.ok.inj hc'
      exact ⟨Handled.refl c, fun hs => hs⟩
    · exact ⟨handled_fsm (by simp) (by simp) hc', fun hs =>
        fsm_closed hs (Or.inr (Or.inl rfl)) hc'⟩
  | read id pdus bad => exact h.read hstep
  | process =>
    obtain rfl := Except.ok.inj hstep
    exact h.stay (fun _ => rfl) rfl
  | timer id t =>
    exact h.withSession (fun _ => rfl) (fun _ => rfl) (fun c c' _ hc' => handled_timer hc') hstep

/-- Every step keeps the invariant. -/
theorem WatchInv.step {w' : Watched} (h : WatchInv w) (hok : VersionsOk w i)
    (hstep : watchStep w i = some w') : WatchInv w' := by
  obtain ⟨e', he', rfl⟩ := Option.map_eq_some_iff.mp hstep
  replace he' : w.engine.step i = .ok e' := by
    unfold rtrStep at he'
    cases hres : w.engine.step i with
    | error err =>
      rw [hres] at he'
      cases he'
    | ok e =>
      rw [hres] at he'
      exact congrArg Except.ok (Option.some.inj he')
  unfold Engine.step at he'
  cases hread : w.engine.reading with
  | none =>
    rw [hread] at he'
    exact h.idleStep hok hread he'
  | some id =>
    rw [hread] at he'
    cases i with
    | process => exact h.process hok hread he'
    | _ =>
      -- the PDUs are handled first
      obtain rfl := Except.ok.inj he'
      exact h.stay (fun _ => opens_of_reading hread) rfl

/-! ## Runs -/

/-- In runs without misleading error reports and without reloads that raise the minimum above a
    version in use, versions are negotiated within their bounds. -/
theorem versions_negotiated (is : List Input) (w : Watched)
    (h : Run watchStep VersionsOk {} is w) : w.Negotiated := by
  have hinit : WatchInv {} := ⟨List.nodup_nil, fun rs hmem => nomatch hmem⟩
  have hinv : WatchInv w := h.invariant (fun _ _ _ h hok hstep => h.step hok hstep) hinit
  intro rs hmem
  have hrs := hinv.sessions rs hmem
  refine ⟨fun hs => hrs.range ?_, hrs.chain, hrs.resends⟩
  rcases hs with hs | hs
  · rw [hs]
    simp
  · rw [hs]
    simp

theorem length_versionReport : 8 + (List.replicate 8 (0 : UInt8)).length ≤ 65535 := by decide

/-- An error report without an embedded PDU and without a text. -/
def versionReport (version : UInt8) (errcode : UInt16) : Pdu :=
  ⟨version, 10, errcode, List.replicate 8 0, length_versionReport⟩

/-- A cache is configured and answers the first query. -/
def versionInputs (minVersion : ℕ) (pdus : List Pdu) : List Input :=
  [.rtrConfig 1 minVersion, .socketSetup 1, .read 1 pdus none] ++ pdus.map fun _ => .process

/-- A cache that only knows version 0. -/
theorem versions_negotiated_sample : ∃ w, Run watchStep VersionsOk {}
    (versionInputs 0 [versionReport 0 4, ⟨0, 3, 5, [], by decide⟩]) w ∧ w.Negotiated ∧
    (w.log 1).queries = [(1, false), (0, true)] := by
  obtain ⟨w, hrun, hlog⟩ := exists_run watchStep VersionsOk {}
    (versionInputs 0 [versionReport 0 4, ⟨0, 3, 5, [], by decide⟩])
    (fun w => (w.log 1).queries = [(1, false), (0, true)]) (by decide +kernel)
  exact ⟨w, hrun, versions_negotiated _ w hrun, hlog⟩

/-- With a minimum of 1 a report of version 0 that there is no data leads to version 0, and without
    a minimum two reports about the version lead to two queries of version 0. -/
theorem version_not_negotiated :
    (∃ w, Run watchStep (fun _ _ => True) {} (versionInputs 1 [versionReport 0 2]) w ∧
      (∀ rs ∈ w.engine.rtrs, rs.state = .established ∧ rs.version < rs.minVersion) ∧
      ¬w.Negotiated) ∧
    ∃ w, Run watchStep (fun _ _ => True) {}
      (versionInputs 0 [versionReport 0 4, versionReport 0 4]) w ∧
      (w.log 1).queries = [(1, false), (0, true), (0, true)] ∧ ¬w.Negotiated := by
  constructor
  · obtain ⟨w, hrun, hids, hrs⟩ := exists_run watchStep (fun _ _ => True) {}
      (versionInputs 1 [versionReport 0 2])
      (fun w => w.engine.rtrs.map Session.id = [1] ∧
        ∀ rs ∈ w.engine.rtrs, rs.state = .established ∧ rs.version < rs.minVersion)
      (by decide +kernel)
    refine ⟨w, hrun, hrs, fun hneg => ?_⟩
    obtain ⟨rs, hmem, -⟩ := List.mem_map.mp (hids ▸ List.mem_singleton_self 1)
    obtain ⟨hstate, hlt⟩ := hrs rs hmem
    exact absurd ((hneg rs hmem).1 (Or.inl hstate)).1 (Nat.not_le.mpr hlt)
  · obtain ⟨w, hrun, hids, hlog⟩ := exists_run watchStep (fun _ _ => True) {}
      (versionInputs 0 [versionReport 0 4, versionReport 0 4])
      (fun w => w.engine.rtrs.map Session.id = [1] ∧
        (w.log 1).queries = [(1, false), (0, true), (0, true)])
      (by decide +kernel)
    refine ⟨w, hrun, hlog, fun hneg => ?_⟩
    obtain ⟨rs, hmem, hid⟩ := List.mem_map.mp (hids ▸ List.mem_singleton_self 1)
    have hchain := (hneg rs hmem).2.1
    rw [hid, hlog] at hchain
    simp at hchain

end Bgpd.Rtr
