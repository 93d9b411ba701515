import Bgpd.Lib.Run
import Bgpd.Rtr.Rules

/-!
# The Recalculation Lock

`rtr_recalc_semaphore` counts the sessions with `active_lock`. A session sets its lock at a
`CACHE_RESPONSE` and clears it at an `END_OF_DATA`, when the activity timer fires or when its
connection is closed. `NO_DATA_AVAILABLE` however takes a session out of its exchange with the lock
still set: the next `CACHE_RESPONSE` takes the lock a second time and one unit is never given back.

## Main results

- `LockExact.fsm`: what the events keep
- `sem_exact`: runs in which no `NO_DATA_AVAILABLE` comes while the lock is set
- `sem_leaks`: a run after which nothing is sent any more
-/

namespace Bgpd.Rtr

open Lib

/-- A session that has the lock exchanges data or had an error, and its connection is open; as is
    that of a session with PDUs that wait. -/
def Session.Held (rs : Session) : Prop :=
  (rs.activeLock = true → (rs.state = .exchange ∨ rs.state = .error) ∧ rs.connOpen = true) ∧
    (rs.rbufs ≠ [] → rs.connOpen = true)

/-- The semaphore is the number of sessions that have the lock. -/
structure LockExact (sh : Shared) (rtrs : List Session) : Prop where
  sem : sh.sem = rtrs.countP (·.activeLock)
  held : ∀ rs ∈ rtrs, rs.Held

/-- `NO_DATA_AVAILABLE` comes without the lock. -/
def NoDataUnlocked (rs : Session) (event : Event) : Prop := event = .noData → rs.activeLock = false

variable {sh sh' : Shared} {before after : List Session} {rs rs' : Session} {c c' : Cur}

/-! ## One session -/

theorem Session.Held.of_lock_eq_false (h : rs.activeLock = false)
    (hrbufs : rs.rbufs ≠ [] → rs.connOpen = true) : rs.Held :=
  ⟨fun hlock => absurd hlock (by rw [h]; exact Bool.false_ne_true), hrbufs⟩

theorem Session.Held.of_quiet (h : rs.Held) (hq : Quiet rs rs') : rs'.Held := by
  constructor
  · intro hlock
    rw [hq.activeLock] at hlock
    rw [hq.state, hq.connOpen]
    exact h.1 hlock
  · intro hrbufs
    rw [hq.connOpen]
    exact (hq.rbufs hrbufs).elim h.2 fun hopen => hopen

/-- In any other state there is no lock. -/
theorem Session.Held.lock_eq_false (h : rs.Held) (hex : rs.state ≠ .exchange)
    (herr : rs.state ≠ .error) : rs.activeLock = false := by
  apply Bool.eq_false_of_not_eq_true
  intro hlock
  exact (h.1 hlock).1.elim hex herr

theorem sendQuery_quiet (rs : Session) : Quiet rs rs.sendQuery := by
  unfold Session.sendQuery
  split_ifs
  · exact ⟨rfl, rfl, rfl, rfl, rfl, rfl, rfl, rfl, Or.inl⟩
  · exact ⟨rfl, rfl, rfl, rfl, rfl, rfl, rfl, rfl, Or.inl⟩

namespace LockExact

theorem count_locks (before after : List Session) (rs : Session) :
    (((before ++ rs :: after).countP (·.activeLock) : ℕ) : ℤ) =
      (before.countP (·.activeLock) : ℕ) + (after.countP (·.activeLock) : ℕ) + rs.lock := by
  rw [List.countP_append, List.countP_cons]
  unfold Session.lock
  cases rs.activeLock
  · simp
  · simp [add_assoc]

/-- One session is changed, and the semaphore with its lock. -/
theorem set (h : LockExact sh (before ++ rs :: after))
    (hsem : sh'.sem - rs'.lock = sh.sem - rs.lock) (hheld : rs'.Held) :
    LockExact sh' (before ++ rs' :: after) := by
  constructor
  · have hsum := h.sem
    rw [count_locks] at hsum ⊢
    linarith
  · intro rs'' hmem
    rcases List.mem_append.mp hmem with hmem | hmem
    · exact h.held _ (List.mem_append_left _ hmem)
    · rcases List.mem_cons.mp hmem with rfl | hmem
      · exact hheld
      · exact h.held _ (List.mem_append_right _ (List.mem_cons_of_mem _ hmem))

/-- The lock of a session is part of the semaphore. -/
theorem lock_le (h : LockExact sh (before ++ rs :: after)) : 0 ≤ sh.sem - rs.lock := by
  rw [h.sem, count_locks, add_sub_cancel_right]
  positivity

end LockExact

/-- The invariant while the session `rs` is handled. -/
def CurExact (c : Cur) : Prop := LockExact c.toShared (c.before ++ c.rs :: c.after)

namespace CurExact

theorem held (h : CurExact c) : c.rs.Held :=
  LockExact.held h c.rs (List.mem_append_right _ List.mem_cons_self)

@[simp] theorem recalc_sem (sh : Shared) (sources : List Session) :
    (sh.recalc sources).sem = sh.sem := by
  unfold Shared.recalc
  split_ifs
  · rfl
  · rfl

theorem recalc (h : CurExact c) : CurExact c.recalc := by
  refine LockExact.set h ?_ h.held
  exact congrArg (· - c.rs.lock) (recalc_sem _ _)

/-- The lock and the semaphore stay as they are. -/
theorem modify (h : CurExact c) {f : Session → Session}
    (hlock : (f c.rs).activeLock = c.rs.activeLock) (hheld : (f c.rs).Held) :
    CurExact (c.modify f) := by
  refine LockExact.set h ?_ hheld
  change c.sem - (f c.rs).lock = c.sem - c.rs.lock
  unfold Session.lock
  rw [hlock]

theorem quiet (h : CurExact c) {m : List MainMsg} (hq : Quiet c.rs rs) :
    CurExact { c with rs := rs, main := m } := by
  refine LockExact.set h ?_ (h.held.of_quiet hq)
  change c.sem - rs.lock = c.sem - c.rs.lock
  unfold Session.lock
  rw [hq.activeLock]

/-- `rtr_reset_cache` -/
theorem reset (h : CurExact c) : CurExact (c.modify Session.resetCache) := h.modify rfl h.held

theorem sendError (h : CurExact c) (err : RtrError) (pdu : List UInt8) :
    CurExact (c.sendError err pdu) := by
  have hsend : CurExact (c.modify fun rs => rs.send (.errorReport rs.version err (pdu.take 256))) :=
    h.modify rfl h.held
  refine hsend.reset.recalc.modify rfl ?_
  exact ⟨fun hlock => ⟨Or.inr rfl, (h.held.1 hlock).2⟩, h.held.2⟩

/-- Closing keeps the locks exact if the session holds none. -/
theorem closeConn (h : CurExact c) (hlock : c.rs.activeLock = false) : CurExact c.closeConn := by
  have hrs := (Closed.closeConn_rs c).1
  have hrbufs : c.closeConn.rs.rbufs = [] := by
    unfold Cur.closeConn
    dsimp only
    split_ifs with hopen
    · rfl
    · by_contra hne
      exact hopen (h.held.2 hne)
  have hframe := Closed.closeConn_frame c
  have hsem : c.closeConn.sem = c.sem := by
    unfold Cur.closeConn
    dsimp only
    split_ifs
    · rfl
    · rfl
  unfold CurExact
  rw [hframe.1, hframe.2]
  refine LockExact.set h ?_ (Session.Held.of_lock_eq_false (hrs.trans hlock)
    fun hne => absurd hrbufs hne)
  unfold Session.lock
  rw [hsem, hrs]

/-- `rtr_sem_release` finds the unit of the session, and then its lock is cleared. -/
theorem semRelease (h : CurExact c) {f : Session → Session}
    (hlock : (f c.rs).activeLock = c.rs.activeLock)
    (hrbufs : (f c.rs).rbufs ≠ [] → (f c.rs).connOpen = true) :
    (c.modify f).semRelease = .ok { c.modify f with sem := c.sem - c.rs.lock } ∧
      CurExact { c with
        sem := c.sem - c.rs.lock, rs := { f c.rs with activeLock := false } } := by
  constructor
  · have hf : (f c.rs).lock = c.rs.lock := by
      unfold Session.lock
      rw [hlock]
    have hle : ¬c.sem - (f c.rs).lock < 0 := by
      rw [hf]
      exact not_lt.mpr (LockExact.lock_le h)
    rw [← hf]
    exact if_neg hle
  · exact LockExact.set h (sub_zero _) (Session.Held.of_lock_eq_false rfl hrbufs)

theorem conClose (h : CurExact c) (reset : Bool) : Sound CurExact (c.conClose reset) := by
  unfold Cur.conClose
  split_ifs with hreset
  · obtain ⟨hrel, hP⟩ := h.semRelease (f := Session.resetCache) rfl h.held.2
    rw [hrel]
    exact Sound.ok (hP.recalc.closeConn rfl)
  · rw [Bool.or_eq_true, not_or, Bool.not_eq_true, Bool.not_eq_true] at hreset
    exact Sound.ok (h.closeConn hreset.2)

/-- The semaphore is given back before the lock is cleared; nothing looks at it in between. -/
theorem releaseLock (h : CurExact c) {f : Session → Session}
    (hlock : (f c.rs).activeLock = c.rs.activeLock)
    (hrbufs : (f c.rs).rbufs ≠ [] → (f c.rs).connOpen = true) :
    Sound CurExact (c.modify f).releaseLock := by
  unfold Cur.releaseLock
  rw [(h.semRelease hlock hrbufs).1]
  refine Sound.ok (LockExact.set h ?_ (Session.Held.of_lock_eq_false rfl hrbufs))
  exact (sub_zero _).trans (recalc_sem _ _)

theorem sendQuery (h : CurExact c) : CurExact (c.modify Session.sendQuery) :=
  h.quiet (m := c.main) (sendQuery_quiet c.rs)

theorem retry (h : CurExact c) : Sound CurExact c.retry := by
  unfold Cur.retry
  cases c.rs.state with
  | error => exact h.conClose false
  | closed => exact Sound.ok (h.quiet ⟨rfl, rfl, rfl, rfl, rfl, rfl, rfl, rfl, Or.inl⟩)
  | negotiation => exact Sound.ok (h.quiet ⟨rfl, rfl, rfl, rfl, rfl, rfl, rfl, rfl, Or.inl⟩)
  | established => exact Sound.ok h.sendQuery
  | exchange => exact Sound.ok h

/-- The start of an exchange. -/
theorem response (h : CurExact c) (pdu : Pdu) (hopen : c.rs.connOpen = true)
    (hstate : c.rs.state = .established) :
    Sound CurExact (rtrFsm (c.modify (·.learnId pdu)) .cacheResponse) := by
  have hlock : c.rs.lock = 0 := by
    unfold Session.lock
    rw [h.held.lock_eq_false (by rw [hstate]; simp) (by rw [hstate]; simp)]
    rfl
  have hlearn : (c.rs.learnId pdu).connOpen = true := by
    unfold Session.learnId
    split_ifs
    · exact hopen
    · exact hopen
  refine Sound.ok (LockExact.set h ?_ ⟨fun _ => ⟨Or.inl rfl, hlearn⟩, fun _ => hlearn⟩)
  rw [hlock, sub_zero]
  exact add_sub_cancel_right c.sem 1

/-- What the events keep. -/
theorem fsm {event : Event} (h : CurExact c) (hguard : Guard c.rs event)
    (hok : NoDataUnlocked c.rs event) : Sound CurExact (rtrFsm c event) := by
  cases event with
  | start => exact h.retry
  | conOpen =>
    have hlock : c.rs.activeLock = false := by
      apply h.held.lock_eq_false
      · rcases hguard.1 with hstate | hstate <;> rw [hstate] <;> simp
      · rcases hguard.1 with hstate | hstate <;> rw [hstate] <;> simp
    have hquery := sendQuery_quiet { c.rs.timerStop .retry with state := .negotiation }
    exact Sound.ok (h.modify hquery.activeLock
      (Session.Held.of_lock_eq_false (hquery.activeLock.trans hlock) fun _ =>
        hquery.connOpen.trans hguard.2))
  | conClose => exact h.conClose false
  | timerRefresh => exact Sound.ok (h.quiet ⟨rfl, rfl, rfl, rfl, rfl, rfl, rfl, rfl, Or.inl⟩)
  | timerRetry => exact h.retry
  | timerExpire => exact Sound.ok h.reset.recalc
  | timerActive => exact h.releaseLock (f := id) rfl h.held.2
  | serialNotify => exact Sound.ok (h.quiet ⟨rfl, rfl, rfl, rfl, rfl, rfl, rfl, rfl, Or.inl⟩)
  | cacheResponse => exact hguard.elim
  | endOfData =>
    refine (h.releaseLock rfl h.held.2).bind fun c' hP => ?_
    exact Sound.ok (hP.quiet ⟨rfl, rfl, rfl, rfl, rfl, rfl, rfl, rfl, Or.inl⟩)
  | cacheReset => exact Sound.ok (h.reset.recalc.modify rfl h.held)
  | noData => exact Sound.ok (h.modify rfl (Session.Held.of_lock_eq_false (hok rfl) h.held.2))
  | resetAndClose => exact h.conClose true
  | unsuppProtoVersion =>
    rw [rtrFsm]
    split_ifs
    · exact Sound.ok ((h.modify rfl h.held).sendError _ _)
    · exact Sound.ok h.sendQuery
  | negotiationDone =>
    have hlock : c.rs.activeLock = false := h.held.lock_eq_false (by rw [hguard.1]; simp)
      (by rw [hguard.1]; simp)
    exact Sound.ok (h.modify rfl (Session.Held.of_lock_eq_false hlock h.held.2))

theorem closed : Closed NoDataUnlocked CurExact where
  quiet h hq := h.quiet hq
  transfer _ _ h _ := h.modify rfl h.held
  learn _ h _ _ _ := h.modify rfl h.held
  error err pdu h := h.sendError err pdu
  reset h := h.reset
  conn h hstate := by
    have hlock := h.held.lock_eq_false
      (by rcases hstate with hstate | hstate <;> rw [hstate] <;> simp)
      (by rcases hstate with hstate | hstate <;> rw [hstate] <;> simp)
    exact h.modify rfl (Session.Held.of_lock_eq_false hlock fun _ => rfl)
  response pdu h hopen hstate := h.response pdu hopen hstate
  fsm h hguard hok := h.fsm hguard hok

theorem allows : Allows NoDataUnlocked where
  quiet hq hok hevent := hq.activeLock.trans (hok hevent)
  always hnoData _ _ hevent := absurd hevent hnoData
  learnt _ hevent := nomatch hevent

end CurExact

/-! ## The engine -/

namespace LockExact

variable {rtrs : List Session}

/-- A session without the lock is removed. -/
theorem remove (h : LockExact sh (before ++ rs :: after)) (hlock : rs.activeLock = false) :
    LockExact sh (before ++ after) := by
  constructor
  · rw [h.sem, List.countP_append, List.countP_append, List.countP_cons, hlock]
    simp
  · intro rs' hmem
    apply h.held
    exact (List.mem_append.mp hmem).elim (List.mem_append_left _)
      fun hmem => List.mem_append_right _ (List.mem_cons_of_mem _ hmem)

/-- `RECONF_DELETE` -/
theorem mark (h : LockExact sh rtrs) :
    LockExact sh (rtrs.map fun rs => { rs with reconfAction := .delete }) := by
  constructor
  · rw [h.sem, List.countP_map]
    rfl
  · intro rs hmem
    obtain ⟨rs', hrs', rfl⟩ := List.mem_map.mp hmem
    exact h.held rs' hrs'

theorem new (h : LockExact sh rtrs) (id minVersion : ℕ) :
    LockExact sh (rtrs ++ [newSession id minVersion]) := by
  constructor
  · rw [h.sem, List.countP_append]
    rfl
  · intro rs hmem
    rcases List.mem_append.mp hmem with hmem | hmem
    · exact h.held rs hmem
    · obtain rfl := List.mem_singleton.mp hmem
      exact Session.Held.of_lock_eq_false rfl fun hne => absurd rfl hne

theorem rule : EngineRule NoDataUnlocked CurExact LockExact where
  closed := CurExact.closed
  allows := CurExact.allows
  opened h hne := h.held.2 hne
  focus _ h := ⟨h.sem, h.held⟩
  put h := h
  free h hlock := h.remove hlock
  config _ _ h := ⟨h.sem, h.held⟩
  mark h := h.mark
  new id minVersion h := h.new id minVersion
  recalc h := ⟨(CurExact.recalc_sem _ _).trans h.sem, h.held⟩

/-- Without an exchange or an error nothing holds back `rtr_recalc`. -/
theorem sem_eq_zero (h : LockExact sh rtrs)
    (hidle : ∀ rs ∈ rtrs, rs.state ≠ .exchange ∧ rs.state ≠ .error) : sh.sem = 0 := by
  have hzero : rtrs.countP (·.activeLock) = 0 := by
    apply List.countP_eq_zero.mpr
    intro rs hmem
    rw [(h.held rs hmem).lock_eq_false (hidle rs hmem).1 (hidle rs hmem).2]
    exact Bool.false_ne_true
  rw [h.sem, hzero]
  rfl

end LockExact

/-! ## `NO_DATA_AVAILABLE` -/

/-- No `NO_DATA_AVAILABLE` is handled for a session that has the lock. -/
def NoDataOk (e : Engine) (i : Input) : Prop :=
  i = .process → ∀ id ∈ e.reading, ∀ c ∈ e.focus id, ∀ pdu ∈ c.rs.rbufs.head?,
    pdu.type = .errorReport → errorEvent pdu = some .noData → c.rs.activeLock = false

instance (e : Engine) (i : Input) : Decidable (NoDataOk e i) :=
  match i with
  | .process => decidable_of_iff (∀ id ∈ e.reading, ∀ c ∈ e.focus id, ∀ pdu ∈ c.rs.rbufs.head?,
      pdu.type = .errorReport → errorEvent pdu = some .noData → c.rs.activeLock = false)
      ⟨fun h _ => h, fun h => h rfl⟩
  | .timer .. | .reconfConf | .roaItem .. | .aspaItem .. | .rtrConfig .. | .reconfDone _ |
    .socketSetup _ | .expire _ | .hangup _ | .write .. | .readError _ | .read .. =>
    isTrue fun h => Input.noConfusion h

theorem NoDataOk.allowed {e : Engine} {i : Input} (h : NoDataOk e i) :
    Allowed NoDataUnlocked e i := by
  cases i with
  | process =>
    intro id hid c hc pdu hpdu
    exact ⟨fun _ _ _ hevent => (nomatch hevent),
      fun htype hevent _ => h rfl id hid c hc pdu hpdu htype hevent⟩
  | timer id t =>
    cases t with
    | active => exact fun _ _ _ _ hevent => nomatch hevent
    | _ => trivial
  | _ => trivial

theorem length_of_ibufGetN32 {buf rest : List UInt8} {value : UInt32}
    (h : Rde.Nlri.ibufGetN32 buf = some (value, rest)) : buf.length = rest.length + 4 := by
  unfold Rde.Nlri.ibufGetN32 at h
  split at h
  · obtain ⟨_, rfl⟩ := Prod.mk.inj (Option.some.inj h)
    rfl
  · cases h

/-- A report that can be read has both of its lengths. -/
theorem le_length_of_errorEncoded {buf : List UInt8} (h : errorEncoded buf = true) :
    8 ≤ buf.length := by
  unfold errorEncoded at h
  cases hfirst : Rde.Nlri.ibufGetN32 buf with
  | none => simp [hfirst] at h
  | some x =>
    have hlen := length_of_ibufGetN32 hfirst
    cases hskip : Rde.Nlri.ibufSkip x.1.toNat x.2 with
    | none => simp [hfirst, hskip] at h
    | some buf' =>
      have hle : buf'.length ≤ x.2.length := by
        unfold Rde.Nlri.ibufSkip at hskip
        split_ifs at hskip
        obtain rfl := Option.some.inj hskip
        exact (List.drop_sublist _ _).length_le
      cases hsecond : Rde.Nlri.ibufGetN32 buf' with
      | none => simp [hfirst, hskip, hsecond] at h
      | some y =>
        have hlen' := length_of_ibufGetN32 hsecond
        omega

/-- `NO_DATA_AVAILABLE` is handled in any state but during the negotiation, whatever version it
    has. -/
theorem rtrProcessMsg_noData {pdu : Pdu} (hstate : c.rs.state ≠ .negotiation)
    (htype : pdu.type = .errorReport) (hevent : errorEvent pdu = some .noData) :
    rtrProcessMsg c pdu = rtrFsm c .noData := by
  have hencoded : errorEncoded pdu.body = true := by
    by_contra hbad
    unfold errorEvent at hevent
    rw [if_pos (by simpa using hbad)] at hevent
    cases hevent
  have hversion : checkVersion c.rs pdu = (c.rs, .ok false) := by
    unfold checkVersion
    rw [if_neg hstate, if_neg fun hand => hand.2 htype]
  have hlength : checkLength c.rs.version pdu = none := by
    unfold checkLength
    rw [htype]
    exact if_neg (not_lt.mpr (le_length_of_errorEncoded hencoded))
  have hheader : rtrParseHeader c pdu = (c, true) := by
    unfold rtrParseHeader
    rw [hversion]
    dsimp only
    rw [hlength]
    rfl
  unfold rtrProcessMsg
  rw [hheader, htype]
  unfold rtrParseError
  rw [hevent]
  rfl

/-- The session is no longer in its exchange, but it has the lock. -/
theorem NoDataOk.of_lockExact {e : Engine} {i : Input} (h : LockExact e.toShared e.rtrs)
    (hbad : ¬NoDataOk e i) :
    ∃ e', e.step i = .ok e' ∧ ¬LockExact e'.toShared e'.rtrs := by
  unfold NoDataOk at hbad
  push Not at hbad
  obtain ⟨rfl, id, hid, c, hc, pdu, hpdu, htype, hevent, hlock⟩ := hbad
  have hlock : c.rs.activeLock = true := by simpa using hlock
  have hheld : c.rs.Held := CurExact.held (LockExact.rule.ofFocus h hc)
  obtain ⟨rest, hrbufs⟩ : ∃ rest, c.rs.rbufs = pdu :: rest := by
    cases hrbufs : c.rs.rbufs with
    | nil =>
      rw [hrbufs] at hpdu
      cases hpdu
    | cons pdu' rest =>
      rw [hrbufs] at hpdu
      obtain rfl := Option.some.inj hpdu
      exact ⟨rest, rfl⟩
  have hstate : c.rs.state ≠ .negotiation := by
    rcases (hheld.1 hlock).1 with hstate | hstate <;> rw [hstate] <;> simp
  have hmsg := rtrProcessMsg_noData (c := c.modify fun rs => { rs with rbufs := rest }) hstate
    htype hevent
  have hread : e.reading = some id := hid
  have hc : e.focus id = some c := hc
  have hstep : e.step .process = (rtrProcessMsg (c.modify fun rs => { rs with rbufs := rest })
      pdu).map e.put := by
    unfold Engine.step
    rw [hread]
    dsimp only
    unfold Engine.process
    rw [hc]
    dsimp only
    rw [hrbufs]
  rw [hstep, hmsg]
  refine ⟨_, rfl, fun hexact => ?_⟩
  have hheld' := LockExact.held hexact _ (List.mem_append_right _ List.mem_cons_self)
  rcases (hheld'.1 hlock).1 with hstate' | hstate' <;> cases hstate'

/-- As long as no `NO_DATA_AVAILABLE` comes while the lock is set, the semaphore counts the locks,
    a lock is only held in an exchange or after an error, and without those the tables are sent.
    There is no underflow, and the first such report breaks it. -/
theorem sem_exact {is : List Input} {e : Engine} (h : Run rtrStep NoDataOk {} is e) :
    LockExact e.toShared e.rtrs ∧
    ((∀ rs ∈ e.rtrs, rs.state ≠ .exchange ∧ rs.state ≠ .error) →
      e.sem = 0 ∧ e.recalc.sent =
        e.sent ++ [⟨e.conf, e.rtrs, recalcMsgs e.conf (e.rtrs.map Session.toRpkiData)⟩]) ∧
    ∀ i, ∃ e', e.step i = .ok e' ∧ (NoDataOk e i ↔ LockExact e'.toShared e'.rtrs) := by
  have hexact : LockExact e.toShared e.rtrs := by
    refine h.invariant (P := fun e => LockExact e.toShared e.rtrs) ?_
      ⟨rfl, fun _ hmem => nomatch hmem⟩
    intro e i e' hexact hok hstep
    obtain ⟨e'', hstep', hexact'⟩ := LockExact.rule.step hexact hok.allowed
    unfold rtrStep at hstep
    rw [hstep'] at hstep
    obtain rfl := Option.some.inj hstep
    exact hexact'
  refine ⟨hexact, fun hidle => ?_, fun i => ?_⟩
  · have hsem := hexact.sem_eq_zero hidle
    refine ⟨hsem, ?_⟩
    unfold Engine.recalc Shared.recalc
    rw [if_neg (by rw [hsem]; exact lt_irrefl 0)]
  · by_cases hok : NoDataOk e i
    · obtain ⟨e', hstep, hexact'⟩ := LockExact.rule.step hexact hok.allowed
      exact ⟨e', hstep, iff_of_true hok hexact'⟩
    · obtain ⟨e', hstep, hbad⟩ := NoDataOk.of_lockExact hexact hok
      exact ⟨e', hstep, iff_of_false hok hbad⟩

/-! ## A session -/

/-- `CACHE_RESPONSE` of version 1. -/
def sampleResponse : Pdu := ⟨1, 3, 5, [], by decide⟩

/-- An error report without a PDU and without a text. -/
def sampleReport (errcode : UInt16) : Pdu := ⟨1, 10, errcode, List.replicate 8 0, by decide⟩

/-- `END_OF_DATA` with the default times. -/
def sampleEndOfData : Pdu :=
  ⟨1, 7, 5, [0, 0, 0, 1, 0, 0, 14, 16, 0, 0, 2, 88, 0, 0, 28, 32], by decide⟩

/-- A session is configured, its connection opens and these PDUs are read. -/
def sampleInputs (pdus : List Pdu) : List Input :=
  [.reconfConf, .rtrConfig 1 0, .reconfDone 0, .socketSetup 1, .read 1 pdus none] ++
    pdus.map fun _ => .process

/-- `NO_DATA_AVAILABLE`, then an exchange: behind its `CACHE_RESPONSE` the session has the lock, and
    behind its `END_OF_DATA` it has given it back. -/
theorem sem_exact_sample :
    (∃ e, Run rtrStep NoDataOk {}
        ((sampleInputs [sampleReport 2, sampleResponse, sampleEndOfData]).take 7) e ∧
      LockExact e.toShared e.rtrs ∧ e.sem = 1 ∧ ∃ rs ∈ e.rtrs, rs.activeLock = true) ∧
    ∃ e, Run rtrStep NoDataOk {}
        (sampleInputs [sampleReport 2, sampleResponse, sampleEndOfData]) e ∧
      LockExact e.toShared e.rtrs ∧ e.sem = 0 ∧
      e.recalc.sent =
        e.sent ++ [⟨e.conf, e.rtrs, recalcMsgs e.conf (e.rtrs.map Session.toRpkiData)⟩] := by
  constructor
  · obtain ⟨e, hrun, hlocked⟩ := exists_run rtrStep NoDataOk {}
      ((sampleInputs [sampleReport 2, sampleResponse, sampleEndOfData]).take 7)
      (fun e => e.sem = 1 ∧ ∃ rs ∈ e.rtrs, rs.activeLock = true) (by decide)
    exact ⟨e, hrun, (sem_exact hrun).1, hlocked⟩
  · obtain ⟨e, hrun, hidle⟩ := exists_run rtrStep NoDataOk {}
      (sampleInputs [sampleReport 2, sampleResponse, sampleEndOfData])
      (fun e => ∀ rs ∈ e.rtrs, rs.state ≠ .exchange ∧ rs.state ≠ .error) (by decide)
    exact ⟨e, hrun, (sem_exact hrun).1, (sem_exact hrun).2.1 hidle⟩

/-- One unit is leaked: no session has the lock, but nothing is sent any more. -/
theorem sem_leaks : ∃ e, Run rtrStep (fun _ _ => True) {}
    (sampleInputs [sampleResponse, sampleReport 2, sampleResponse, sampleEndOfData]) e ∧
      ¬LockExact e.toShared e.rtrs ∧
      (∀ rs ∈ e.rtrs, rs.state = .established ∧ rs.activeLock = false) ∧
      e.recalc.sent = e.sent := by
  obtain ⟨e, hrun, hsem, hrtrs⟩ := exists_run rtrStep (fun _ _ => True) {}
    (sampleInputs [sampleResponse, sampleReport 2, sampleResponse, sampleEndOfData])
    (fun e => e.sem = 1 ∧ ∀ rs ∈ e.rtrs, rs.state = .established ∧ rs.activeLock = false)
    (by decide)
  refine ⟨e, hrun, fun hexact => ?_, hrtrs, ?_⟩
  · have hzero := hexact.sem_eq_zero fun rs hmem => by
      rw [(hrtrs rs hmem).1]
      exact ⟨by simp, by simp⟩
    rw [hsem] at hzero
    cases hzero
  · unfold Engine.recalc Shared.recalc
    rw [if_pos (by rw [hsem]; exact zero_lt_one)]

end Bgpd.Rtr
