import Bgpd.Rtr.Lock

/-!
# Complete Data

The data of a session is complete at an `END_OF_DATA` and empty after a reset. During an exchange
the trees hold a part of the changes of the cache, and `rtr_recalc` must not run.

Three steps break this. The activity timer releases the lock while the exchange goes on: the tables
are sent with the changes made so far, and the data is kept if the connection is closed later.
`NO_DATA_AVAILABLE` ends an exchange without a reset. And `SERIAL_NOTIFY` gives a session without
data its id, after which the serial is that of data the session had before the reset.

## Main results

- `Settled`, `Whole`: the invariant
- `Whole.fsm`: what the events keep
- `complete_data`: runs without these three steps
- `partial_data_sent`: a run in which data that is not complete is sent
-/

namespace Bgpd.Rtr

open Lib

namespace Session

/-- The data at the last `END_OF_DATA`, empty after `rtr_reset_cache`. -/
def completeData (rs : Session) : RpkiData := rs.complete.elim {} Complete.toRpkiData

/-- The trees hold complete data. With a session id, the serial is that of the data. -/
def Settled (rs : Session) : Prop :=
  rs.toRpkiData = rs.completeData ∧
    (rs.sessionId ≠ none → rs.complete.map Complete.serial = some rs.serial)

/-- The invariant of a session. -/
def Whole (rs : Session) : Prop :=
  (rs.state ≠ .exchange → rs.Settled) ∧ (rs.state = .exchange → rs.activeLock = true) ∧
    (rs.rbufs ≠ [] → rs.connOpen = true)

end Session

/-- What was sent is merged from complete data. -/
def SentComplete (sh : Shared) : Prop :=
  ∀ r ∈ sh.sent, r.msgs = recalcMsgs r.conf (r.sources.map Session.completeData)

/-- The invariant. The semaphore may be larger than the number of locks. -/
structure AllWhole (sh : Shared) (rtrs : List Session) : Prop where
  sem : rtrs.countP (·.activeLock) ≤ sh.sem
  sessions : ∀ rs ∈ rtrs, rs.Whole
  sent : SentComplete sh

/-- None of the three steps: the activity timer does not fire during an exchange, no exchange ends
    with `NO_DATA_AVAILABLE`, and a `SERIAL_NOTIFY` does not give a session its id. -/
def TransferOk (rs : Session) : Event → Prop
  | .noData | .timerActive => rs.state ≠ .exchange
  | .serialNotify => rs.sessionId.isSome ∨ rs.state = .exchange
  | _ => True

instance (rs : Session) (event : Event) : Decidable (TransferOk rs event) := by
  cases event <;> (unfold TransferOk; infer_instance)

variable {sh sh' : Shared} {before after rtrs : List Session} {rs rs' : Session} {c c' : Cur}

/-! ## One session -/

namespace Session

theorem Settled.of_quiet (h : rs.Settled) (hq : Quiet rs rs') : rs'.Settled := by
  unfold Settled completeData
  rw [hq.data, hq.complete, hq.sessionId, hq.serial]
  exact h

theorem Whole.of_quiet (h : rs.Whole) (hq : Quiet rs rs') : rs'.Whole := by
  refine ⟨fun hstate => (h.1 ?_).of_quiet hq, fun hstate => ?_, fun hrbufs => ?_⟩
  · rwa [hq.state] at hstate
  · rw [hq.activeLock]
    exact h.2.1 (hq.state.symm.trans hstate)
  · rw [hq.connOpen]
    exact (hq.rbufs hrbufs).elim h.2.2 fun hopen => hopen

theorem resetCache_settled (rs : Session) : rs.resetCache.Settled := ⟨rfl, fun h => absurd rfl h⟩

end Session

/-- Without a lock there is no exchange. -/
theorem settled_of_countP_eq_zero (h : ∀ rs ∈ rtrs, rs.Whole)
    (hnone : rtrs.countP (·.activeLock) = 0) : ∀ rs ∈ rtrs, rs.Settled := by
  intro rs hmem
  apply (h rs hmem).1
  intro hstate
  exact List.countP_eq_zero.mp hnone rs hmem ((h rs hmem).2.1 hstate)

namespace AllWhole

theorem whole (h : AllWhole sh (before ++ rs :: after)) : rs.Whole :=
  h.sessions rs (List.mem_append_right _ List.mem_cons_self)

/-- One session is changed, and the semaphore with its lock. -/
theorem set (h : AllWhole sh (before ++ rs :: after)) (hsem : sh.sem - rs.lock ≤ sh'.sem - rs'.lock)
    (hwhole : rs'.Whole) (hsent : SentComplete sh') : AllWhole sh' (before ++ rs' :: after) := by
  refine ⟨?_, ?_, hsent⟩
  · have hsum := h.sem
    rw [LockExact.count_locks] at hsum ⊢
    linarith
  · intro rs'' hmem
    rcases List.mem_append.mp hmem with hmem | hmem
    · exact h.sessions _ (List.mem_append_left _ hmem)
    · rcases List.mem_cons.mp hmem with rfl | hmem
      · exact hwhole
      · exact h.sessions _ (List.mem_append_right _ (List.mem_cons_of_mem _ hmem))

theorem lock_le (h : AllWhole sh (before ++ rs :: after)) : 0 ≤ sh.sem - rs.lock := by
  have hsum := h.sem
  rw [LockExact.count_locks] at hsum
  have hbefore : (0 : ℤ) ≤ (before.countP (·.activeLock) : ℕ) := Int.natCast_nonneg _
  have hafter : (0 : ℤ) ≤ (after.countP (·.activeLock) : ℕ) := Int.natCast_nonneg _
  linarith

/-- If `rtr_recalc` is not held back, the other sessions have complete data. -/
theorem others (h : AllWhole sh (before ++ rs :: after)) (hsem : sh.sem - rs.lock ≤ 0) :
    ∀ rs' ∈ before ++ after, rs'.Settled := by
  have hsum := h.sem
  rw [LockExact.count_locks] at hsum
  refine settled_of_countP_eq_zero (fun rs' hmem => h.sessions rs' ?_) ?_
  · exact (List.mem_append.mp hmem).elim (List.mem_append_left _)
      fun hmem => List.mem_append_right _ (List.mem_cons_of_mem _ hmem)
  · rw [List.countP_append]
    omega

end AllWhole

/-- What `rtr_recalc` sends is complete if its sources are. -/
theorem SentComplete.recalc (h : SentComplete sh)
    (hsources : sh.sem ≤ 0 → ∀ rs ∈ rtrs, rs.Settled) : SentComplete (sh.recalc rtrs) := by
  unfold Shared.recalc
  split_ifs with hsem
  · exact h
  · intro r hr
    rcases List.mem_append.mp hr with hr | hr
    · exact h r hr
    · obtain rfl := List.mem_singleton.mp hr
      refine congrArg (recalcMsgs sh.conf) ?_
      exact List.map_congr_left fun rs hmem => (hsources (not_lt.mp hsem) rs hmem).1

/-- The invariant while the session `rs` is handled. -/
def CurWhole (c : Cur) : Prop := AllWhole c.toShared (c.before ++ c.rs :: c.after)

namespace CurWhole

theorem whole (h : CurWhole c) : c.rs.Whole := AllWhole.whole h

theorem sent (h : CurWhole c) : SentComplete c.toShared := AllWhole.sent h

/-- `rtr_recalc` after the session was changed. -/
theorem recalc_sent (h : CurWhole c) {r : Session} {sem : ℤ} (hsem : c.sem - c.rs.lock ≤ sem)
    (hrs : sem ≤ 0 → r.Settled) :
    SentComplete ({ c with sem := sem, rs := r } : Cur).recalc.toShared := by
  refine SentComplete.recalc h.sent fun hle rs' hmem => ?_
  have hothers := AllWhole.others h (hsem.trans hle)
  unfold Cur.sources at hmem
  rcases List.mem_append.mp hmem with hmem | hmem
  · rcases List.mem_append.mp hmem with hmem | hmem
    · exact hothers rs' (List.mem_append_left _ hmem)
    · split_ifs at hmem
      · obtain rfl := List.mem_singleton.mp hmem
        exact hrs hle
      · cases hmem
  · exact hothers rs' (List.mem_append_right _ hmem)

theorem lock_nonneg (rs : Session) : 0 ≤ rs.lock := by
  unfold Session.lock
  split_ifs
  · exact zero_le_one
  · exact le_refl 0

/-- The lock and the semaphore stay as they are. -/
theorem modify (h : CurWhole c) {f : Session → Session}
    (hlock : (f c.rs).activeLock = c.rs.activeLock) (hwhole : (f c.rs).Whole) :
    CurWhole (c.modify f) := by
  refine AllWhole.set h ?_ hwhole h.sent
  change c.sem - c.rs.lock ≤ c.sem - (f c.rs).lock
  unfold Session.lock
  rw [hlock]

theorem quiet (h : CurWhole c) {r : Session} {m : List MainMsg} (hq : Quiet c.rs r) :
    CurWhole { c with rs := r, main := m } := by
  refine AllWhole.set h ?_ (h.whole.of_quiet hq) h.sent
  change c.sem - c.rs.lock ≤ c.sem - r.lock
  unfold Session.lock
  rw [hq.activeLock]

theorem recalc (h : CurWhole c) : CurWhole c.recalc := by
  refine AllWhole.set h (le_of_eq ?_) h.whole (h.recalc_sent (r := c.rs) ?_ fun hsem => ?_)
  · exact congrArg (· - c.rs.lock) (CurExact.recalc_sem _ _).symm
  · linarith [lock_nonneg c.rs]
  · apply h.whole.1
    intro hstate
    have hle := AllWhole.lock_le h
    unfold Session.lock at hle
    rw [h.whole.2.1 hstate, if_pos rfl] at hle
    linarith

theorem resetCache_whole (h : CurWhole c) : c.rs.resetCache.Whole :=
  ⟨fun _ => c.rs.resetCache_settled, h.whole.2⟩

/-- `rtr_reset_cache` -/
theorem reset (h : CurWhole c) : CurWhole (c.modify Session.resetCache) :=
  h.modify rfl h.resetCache_whole

theorem sendError (h : CurWhole c) (err : RtrError) (pdu : List UInt8) :
    CurWhole (c.sendError err pdu) := by
  have hsend := h.quiet (m := c.main)
    (r := c.rs.send (.errorReport c.rs.version err (pdu.take 256)))
    ⟨rfl, rfl, rfl, rfl, rfl, rfl, rfl, rfl, Or.inl⟩
  refine hsend.reset.recalc.modify rfl ⟨fun _ => ?_, fun hstate => (nomatch hstate), h.whole.2.2⟩
  exact Session.resetCache_settled _

/-- The connection of a session with complete data is closed. -/
theorem closeConn_whole (hsettled : c.rs.Settled)
    (hrbufs : c.rs.rbufs ≠ [] → c.rs.connOpen = true) :
    c.closeConn.rs.Whole := by
  have hstate : c.closeConn.rs.state ≠ .exchange := by
    rcases (Closed.closeConn_rs c).2.2 with h | h <;> rw [h] <;> simp
  refine ⟨fun _ => ?_, fun h => absurd h hstate, ?_⟩
  · unfold Cur.closeConn
    dsimp only
    split_ifs
    · exact hsettled
    · exact hsettled
  · unfold Cur.closeConn
    dsimp only
    split_ifs with hopen
    · exact fun hne => absurd rfl hne
    · exact fun hne => absurd (hrbufs hne) hopen

theorem closeConn_shared (c : Cur) : c.closeConn.sem = c.sem ∧ c.closeConn.sent = c.sent := by
  unfold Cur.closeConn
  dsimp only
  split_ifs
  · exact ⟨rfl, rfl⟩
  · exact ⟨rfl, rfl⟩

/-- A session that was changed is closed. -/
theorem closeConn (h : CurWhole c) (hbefore : c'.before = c.before) (hafter : c'.after = c.after)
    (hsem : c.sem - c.rs.lock ≤ c'.sem - c'.rs.lock) (hsettled : c'.rs.Settled)
    (hrbufs : c'.rs.rbufs ≠ [] → c'.rs.connOpen = true) (hsent : SentComplete c'.toShared) :
    CurWhole c'.closeConn := by
  obtain ⟨hsem', hsent'⟩ := closeConn_shared c'
  obtain ⟨hbefore', hafter'⟩ := Closed.closeConn_frame c'
  unfold CurWhole
  rw [hbefore', hafter', hbefore, hafter]
  refine AllWhole.set h ?_ (closeConn_whole hsettled hrbufs) ?_
  · unfold Session.lock at hsem ⊢
    rw [hsem', (Closed.closeConn_rs c').1]
    exact hsem
  · unfold SentComplete
    rw [hsent']
    exact hsent

theorem semRelease (h : CurWhole c) {f : Session → Session}
    (hlock : (f c.rs).activeLock = c.rs.activeLock) :
    (c.modify f).semRelease = .ok { c.modify f with sem := c.sem - c.rs.lock } := by
  have hf : (f c.rs).lock = c.rs.lock := by
    unfold Session.lock
    rw [hlock]
  have hle : ¬c.sem - (f c.rs).lock < 0 := by
    rw [hf]
    exact not_lt.mpr (AllWhole.lock_le h)
  rw [← hf]
  exact if_neg hle

/-- Data of an exchange is dropped with the connection. -/
theorem conClose (h : CurWhole c) (reset : Bool) : Sound CurWhole (c.conClose reset) := by
  unfold Cur.conClose
  split_ifs with hreset
  · have hrel := h.semRelease (f := Session.resetCache) rfl
    rw [hrel]
    refine Sound.ok (h.closeConn rfl rfl ?_ c.rs.resetCache_settled h.whole.2.2 ?_)
    · refine le_of_eq (Eq.symm ?_)
      exact (sub_zero _).trans (CurExact.recalc_sem _ _)
    · exact h.recalc_sent le_rfl fun _ => c.rs.resetCache_settled
  · rw [Bool.or_eq_true, not_or, Bool.not_eq_true, Bool.not_eq_true] at hreset
    have hstate : c.rs.state ≠ .exchange := by
      intro hstate
      have hlock := h.whole.2.1 hstate
      rw [hreset.2] at hlock
      cases hlock
    exact Sound.ok (h.closeConn rfl rfl le_rfl (h.whole.1 hstate) h.whole.2.2 h.sent)

/-- The lock is released by a session with complete data. -/
theorem releaseLock (h : CurWhole c) {f : Session → Session}
    (hlock : (f c.rs).activeLock = c.rs.activeLock) (hsettled : (f c.rs).Settled)
    (hstate : (f c.rs).state ≠ .exchange)
    (hrbufs : (f c.rs).rbufs ≠ [] → (f c.rs).connOpen = true) :
    Sound CurWhole (c.modify f).releaseLock := by
  unfold Cur.releaseLock
  rw [h.semRelease hlock]
  refine Sound.ok (AllWhole.set h ?_ ⟨fun _ => hsettled, fun h => absurd h hstate, hrbufs⟩ ?_)
  · refine le_of_eq (Eq.symm ?_)
    exact (sub_zero _).trans (CurExact.recalc_sem _ _)
  · exact h.recalc_sent le_rfl fun _ => hsettled

theorem retry (h : CurWhole c) : Sound CurWhole c.retry := by
  unfold Cur.retry
  cases c.rs.state with
  | error => exact h.conClose false
  | closed => exact Sound.ok (h.quiet ⟨rfl, rfl, rfl, rfl, rfl, rfl, rfl, rfl, Or.inl⟩)
  | negotiation => exact Sound.ok (h.quiet ⟨rfl, rfl, rfl, rfl, rfl, rfl, rfl, rfl, Or.inl⟩)
  | established => exact Sound.ok (h.quiet (m := c.main) (sendQuery_quiet c.rs))
  | exchange => exact Sound.ok h

/-- The start of an exchange. -/
theorem response (h : CurWhole c) (pdu : Pdu) (hopen : c.rs.connOpen = true) :
    Sound CurWhole (rtrFsm (c.modify (·.learnId pdu)) .cacheResponse) := by
  have hlearn : (c.rs.learnId pdu).connOpen = true := by
    unfold Session.learnId
    split_ifs
    · exact hopen
    · exact hopen
  refine Sound.ok (AllWhole.set h ?_
    ⟨fun hstate => absurd rfl hstate, fun _ => rfl, fun _ => hlearn⟩ h.sent)
  change c.sem - c.rs.lock ≤ c.sem + 1 - 1
  linarith [lock_nonneg c.rs]

/-- A session that is in no exchange gets another state. -/
theorem move (h : CurWhole c) {f : Session → Session} {s : State}
    (hq : Quiet { c.rs with state := s } (f c.rs)) (hstate : c.rs.state ≠ .exchange)
    (hnew : s ≠ .exchange) : CurWhole (c.modify f) := by
  have hmove : Session.Whole { c.rs with state := s } :=
    ⟨fun _ => h.whole.1 hstate, fun h => absurd h hnew, h.whole.2.2⟩
  exact h.modify hq.activeLock (hmove.of_quiet hq)

/-- What the events keep. -/
theorem fsm {event : Event} (h : CurWhole c) (hguard : Guard c.rs event)
    (hok : TransferOk c.rs event) : Sound CurWhole (rtrFsm c event) := by
  cases event with
  | start => exact h.retry
  | conOpen =>
    have hstate : c.rs.state ≠ .exchange := by
      rcases hguard.1 with hstate | hstate <;> rw [hstate] <;> simp
    have hq := sendQuery_quiet { c.rs.timerStop .retry with state := .negotiation }
    refine Sound.ok (h.modify hq.activeLock (Session.Whole.of_quiet ?_ hq))
    exact ⟨fun _ => h.whole.1 hstate, fun h => (nomatch h), h.whole.2.2⟩
  | conClose => exact h.conClose false
  | timerRefresh =>
    exact Sound.ok (h.quiet ⟨rfl, rfl, rfl, rfl, rfl, rfl, rfl, rfl, Or.inl⟩)
  | timerRetry => exact h.retry
  | timerExpire => exact Sound.ok h.reset.recalc
  | timerActive => exact h.releaseLock (f := id) rfl (h.whole.1 hok) hok h.whole.2.2
  | serialNotify =>
    exact Sound.ok (h.quiet ⟨rfl, rfl, rfl, rfl, rfl, rfl, rfl, rfl, Or.inl⟩)
  | cacheResponse => exact hguard.elim
  | endOfData =>
    refine (h.releaseLock rfl ⟨rfl, fun _ => rfl⟩ (by simp) h.whole.2.2).bind fun c' hP => ?_
    exact Sound.ok (hP.quiet ⟨rfl, rfl, rfl, rfl, rfl, rfl, rfl, rfl, Or.inl⟩)
  | cacheReset =>
    exact Sound.ok (h.reset.recalc.quiet (r := c.rs.resetCache.timerSet .retry)
      ⟨rfl, rfl, rfl, rfl, rfl, rfl, rfl, rfl, Or.inl⟩)
  | noData =>
    exact Sound.ok (h.move (s := .established)
      ⟨rfl, rfl, rfl, rfl, rfl, rfl, rfl, rfl, Or.inl⟩ hok (by simp))
  | resetAndClose => exact h.conClose true
  | unsuppProtoVersion =>
    rw [rtrFsm]
    split_ifs
    · have hversion := h.quiet (m := c.main) (r := { c.rs with version := c.rs.maxVersion })
        ⟨rfl, rfl, rfl, rfl, rfl, rfl, rfl, rfl, Or.inl⟩
      exact Sound.ok (hversion.sendError _ _)
    · exact Sound.ok (h.quiet (m := c.main) (sendQuery_quiet c.rs))
  | negotiationDone =>
    exact Sound.ok (h.move (s := .established)
      ⟨rfl, rfl, rfl, rfl, rfl, rfl, rfl, rfl, Or.inl⟩ (by rw [hguard.1]; simp) (by simp))

theorem closed : Closed TransferOk CurWhole where
  quiet h hq := h.quiet hq
  transfer _ _ h hstate :=
    h.modify rfl ⟨fun hne => absurd hstate hne, h.whole.2.1, h.whole.2.2⟩
  learn {c} _ h _ hsid hok := by
    have hstate : c.rs.state = .exchange := by
      refine Or.resolve_left hok ?_
      rw [hsid]
      exact Bool.false_ne_true
    exact h.modify rfl ⟨fun hne => absurd hstate hne, h.whole.2.1, h.whole.2.2⟩
  error err pdu h := h.sendError err pdu
  reset h := h.reset
  conn h hstate := by
    refine h.modify rfl ⟨h.whole.1, h.whole.2.1, fun _ => rfl⟩
  response pdu h hopen _ := h.response pdu hopen
  fsm h hguard hok := h.fsm hguard hok

theorem allows : Allows TransferOk where
  quiet := by
    intro rs rs' event hq hok
    cases event with
    | noData => exact fun hstate => hok (hq.state.symm.trans hstate)
    | timerActive => exact fun hstate => hok (hq.state.symm.trans hstate)
    | serialNotify =>
      unfold TransferOk
      rw [hq.sessionId, hq.state]
      exact hok
    | _ => trivial
  always := by
    intro rs event hnoData hactive hnotify
    cases event with
    | noData => exact absurd rfl hnoData
    | timerActive => exact absurd rfl hactive
    | serialNotify => exact absurd rfl hnotify
    | _ => trivial
  learnt hsid := Or.inl hsid

end CurWhole

/-! ## The engine -/

namespace AllWhole

/-- A session without the lock is removed. -/
theorem remove (h : AllWhole sh (before ++ rs :: after)) : AllWhole sh (before ++ after) := by
  refine ⟨?_, fun rs' hmem => h.sessions rs' ?_, h.sent⟩
  · have hsum := h.sem
    rw [List.countP_append, List.countP_cons] at hsum
    rw [List.countP_append]
    omega
  · exact (List.mem_append.mp hmem).elim (List.mem_append_left _)
      fun hmem => List.mem_append_right _ (List.mem_cons_of_mem _ hmem)

/-- `RECONF_DELETE` -/
theorem mark (h : AllWhole sh rtrs) :
    AllWhole sh (rtrs.map fun rs => { rs with reconfAction := .delete }) := by
  refine ⟨?_, fun rs hmem => ?_, h.sent⟩
  · rw [List.countP_map]
    exact h.sem
  · obtain ⟨rs', hrs', rfl⟩ := List.mem_map.mp hmem
    exact h.sessions rs' hrs'

theorem new (h : AllWhole sh rtrs) (id minVersion : ℕ) :
    AllWhole sh (rtrs ++ [newSession id minVersion]) := by
  refine ⟨?_, fun rs hmem => ?_, h.sent⟩
  · rw [List.countP_append]
    exact h.sem
  · rcases List.mem_append.mp hmem with hmem | hmem
    · exact h.sessions rs hmem
    · obtain rfl := List.mem_singleton.mp hmem
      exact ⟨fun _ => ⟨rfl, fun hne => absurd rfl hne⟩, fun h => (nomatch h),
        fun hne => absurd rfl hne⟩

theorem settled (h : AllWhole sh rtrs) (hsem : sh.sem ≤ 0) : ∀ rs ∈ rtrs, rs.Settled := by
  apply settled_of_countP_eq_zero h.sessions
  have hle := h.sem
  omega

theorem rule : EngineRule TransferOk CurWhole AllWhole where
  closed := CurWhole.closed
  allows := CurWhole.allows
  opened h hne := h.whole.2.2 hne
  focus _ h := ⟨h.sem, h.sessions, h.sent⟩
  put h := h
  free h _ := h.remove
  config _ _ h := ⟨h.sem, h.sessions, h.sent⟩
  mark h := h.mark
  new id minVersion h := h.new id minVersion
  recalc h :=
    ⟨by rw [CurExact.recalc_sem]; exact h.sem, h.sessions, h.sent.recalc h.settled⟩

end AllWhole

/-- As long as none of the three steps is taken, a session that is in no exchange holds complete
    data with its serial, and what is sent is merged from complete data. -/
theorem complete_data {is : List Input} {e : Engine}
    (h : Run rtrStep (Allowed TransferOk) {} is e) :
    (∀ rs ∈ e.rtrs, rs.state ≠ .exchange → rs.toRpkiData = rs.completeData ∧
      (rs.sessionId ≠ none → rs.complete.map Complete.serial = some rs.serial)) ∧
    ∀ r ∈ e.sent, r.msgs = recalcMsgs r.conf (r.sources.map Session.completeData) := by
  have hwhole : AllWhole e.toShared e.rtrs := by
    refine h.invariant (P := fun e => AllWhole e.toShared e.rtrs) ?_
      ⟨le_rfl, fun _ hmem => (nomatch hmem), fun _ hmem => nomatch hmem⟩
    intro e i e' hwhole hok hstep
    obtain ⟨e'', hstep', hwhole'⟩ := AllWhole.rule.step hwhole hok
    unfold rtrStep at hstep
    rw [hstep'] at hstep
    obtain rfl := Option.some.inj hstep
    exact hwhole'
  exact ⟨fun rs hmem => (hwhole.sessions rs hmem).1, hwhole.sent⟩

/-- A ROA for 192.0.2.0/24 is announced. -/
def samplePrefix : Pdu := ⟨1, 4, 0, [1, 24, 24, 0, 192, 0, 2, 0, 0, 0, 251, 240], by decide⟩

/-- A transfer from `CACHE_RESPONSE` to `END_OF_DATA`: the ROA is in the complete data, and what is
    sent at its end is made of that. -/
theorem complete_data_sample : ∃ e, Run rtrStep (Allowed TransferOk) {}
    (sampleInputs [sampleResponse, samplePrefix, sampleEndOfData]) e ∧
      (∃ rs ∈ e.rtrs, rs.toRpkiData = rs.completeData ∧ rs.completeData.roaSet.length = 1) ∧
      ∃ r ∈ e.sent, r.msgs = recalcMsgs r.conf (r.sources.map Session.completeData) ∧
        r.sources.map (·.roaSet.length) = [1] := by
  obtain ⟨e, hrun, hrtrs, hsent⟩ := exists_run rtrStep (Allowed TransferOk) {}
    (sampleInputs [sampleResponse, samplePrefix, sampleEndOfData])
    (fun e => (∃ rs ∈ e.rtrs, rs.state ≠ .exchange ∧ rs.completeData.roaSet.length = 1) ∧
      ∃ r ∈ e.sent, r.sources.map (·.roaSet.length) = [1]) (by decide)
  obtain ⟨hcomplete, hmsgs⟩ := complete_data hrun
  obtain ⟨rs, hmem, hstate, hlen⟩ := hrtrs
  obtain ⟨r, hr, hsources⟩ := hsent
  exact ⟨e, hrun, ⟨rs, hmem, (hcomplete rs hmem hstate).1, hlen⟩, r, hr, hmsgs r hr, hsources⟩

/-- The activity timer fires during an exchange: the first part of the data is sent, and it is kept
    when the connection is closed. -/
theorem partial_data_sent : ∃ e, Run rtrStep (fun _ _ => True) {}
    (sampleInputs [sampleResponse, samplePrefix] ++ [.process, .timer 1 .active, .hangup 1]) e ∧
      (∃ rs ∈ e.rtrs, rs.state = .closed ∧ rs.toRpkiData ≠ rs.completeData) ∧
      ¬SentComplete e.toShared := by
  obtain ⟨e, hrun, hrtrs, hsent⟩ := exists_run rtrStep (fun _ _ => True) {}
    (sampleInputs [sampleResponse, samplePrefix] ++ [.process, .timer 1 .active, .hangup 1])
    (fun e => (∃ rs ∈ e.rtrs, rs.state = .closed ∧
        rs.roaSet.length ≠ rs.completeData.roaSet.length) ∧
      ∃ r ∈ e.sent,
        r.msgs.length ≠ (recalcMsgs r.conf (r.sources.map Session.completeData)).length)
    (by decide)
  refine ⟨e, hrun, ?_, fun hcomplete => ?_⟩
  · obtain ⟨rs, hmem, hstate, hlen⟩ := hrtrs
    exact ⟨rs, hmem, hstate, fun heq => hlen (congrArg (List.length ∘ RpkiData.roaSet) heq)⟩
  · obtain ⟨r, hmem, hlen⟩ := hsent
    exact hlen (congrArg List.length (hcomplete r hmem))

end Bgpd.Rtr
