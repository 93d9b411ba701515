import Bgpd.Session.TimersDue
import Mathlib.Algebra.BigOperators.Group.Finset.Basic
import Mathlib.Algebra.Order.BigOperators.Group.Finset

/-!
# Timers over Whole Runs

Every handler keeps the invariant of the timers, and handling a due timer leaves nothing of it, so
the main loop is done with the due timers of a peer after finitely many iterations.

## Main definitions

- `Promised`, `Fits`: what the configuration promises, and that there is memory
- `PeerRun`: what can become of a peer

## Main results

- `handle_timersOk`: the step lemma
- `checkTimers_handled`: a due timer is stopped or set to a later time
- `timers_not_starved`: the run theorem
-/

namespace Bgpd.Session

open Rde (Aid)
open TimerHead (at_set at_stop)
open Cur (SameTimers OpenFits)

variable {env : Env} {c : Cur} {event : PeerEvent} {t : TimerType}

/-- The invariant only looks at the timers and a few fields. -/
theorem TimersOk.of_same {p p' : Peer} (h : TimersOk p) (hsame : SameTimers p p')
    (hfd : p.state = .idle → p'.fd = none) : TimersOk p' where
  state := hsame.state ▸ h.state
  conn := by
    rw [hsame.state, hsame.timers]
    exact h.conn
  idleHold := by
    rw [hsame.state, hsame.timers]
    exact h.idleHold
  fd := by
    rw [hsame.state]
    exact hfd
  initial := by
    rw [hsame.state, hsame.holdtime]
    exact h.initial
  holdtime := by
    rw [hsame.holdtime]
    exact h.holdtime
  times := hsame.times h.times

namespace Cur

/-! ## Handlers -/

/-- The timers that do not depend on the state. -/
theorem timersOk_set_free {now offset : ℕ} (h : TimersOk c.peer) (hconn : t.conn = false)
    (ht : .idleHold ≠ t) : TimersOk (c.timerSet now t offset).peer where
  state := h.state
  conn := fun hs t' ht' hr => by
    rcases TimerHead.running_set.mp hr with rfl | hr
    · exact absurd ht' (by simp [hconn])
    · exact h.conn hs t' ht' hr
  idleHold := fun hr => h.idleHold ((TimerHead.running_set.mp hr).resolve_left ht)
  fd := h.fd
  initial := h.initial
  holdtime := h.holdtime
  times := h.times

/-- The idle timer may be set in `STATE_IDLE`. -/
theorem timersOk_set_idleHold {now offset : ℕ} (h : TimersOk c.peer)
    (hidle : c.peer.state = .idle) : TimersOk (c.timerSet now .idleHold offset).peer where
  state := h.state
  conn := fun hs t' ht' hr => by
    rcases TimerHead.running_set.mp hr with rfl | hr
    · cases ht'
    · exact h.conn hs t' ht' hr
  idleHold := fun _ => hidle
  fd := h.fd
  initial := h.initial
  holdtime := h.holdtime
  times := h.times

/-- After `EVNT_STOP` and `EVNT_CON_FATAL` a peer is in `STATE_IDLE`. -/
theorem state_fsm_stop (h : TimersOk c.peer) : (c.fsm env .stop).peer.state = .idle := by
  rw [fsm]
  cases hstate : c.peer.state with
  | none => exact absurd hstate h.state
  | idle => exact hstate
  | connect => exact (changeState_idle_kept env .stop c).state
  | active => exact (changeState_idle_kept env .stop c).state
  | opensent => exact (changeState_idle_kept env .stop c).state
  | openconfirm => exact (changeState_idle_kept env .stop c).state
  | established => exact (changeState_idle_kept env .stop c).state

theorem timersOk_fsm {event : Event} (henv : OpenFits env) (hopen : ∀ msg, event ≠ .rcvdOpen msg)
    (h : TimersOk c.peer) : TimersOk (c.fsm env event).peer :=
  fsm_timersOk henv (fun msg heq => absurd heq (hopen msg)) h

theorem timersOk_sessionStop {subcode : ℕ} (henv : OpenFits env) (h : TimersOk c.peer) :
    TimersOk (c.sessionStop env subcode).peer :=
  timersOk_fsm henv (fun _ h => Event.noConfusion h) (timersOk_notification h)

theorem state_sessionStop {subcode : ℕ} (h : TimersOk c.peer) :
    (c.sessionStop env subcode).peer.state = .idle := state_fsm_stop (timersOk_notification h)

theorem timersOk_badMessage {errcode : ErrCode} {subcode : ℕ} (henv : OpenFits env)
    (h : TimersOk c.peer) : TimersOk (c.badMessage env errcode subcode).peer :=
  timersOk_fsm henv (fun _ h => Event.noConfusion h) (timersOk_notification h)

theorem timersOk_dispatchRead {r : Revents} (henv : OpenFits env) (h : TimersOk c.peer) :
    TimersOk (c.dispatchRead env r).peer := by
  rw [dispatchRead]
  by_cases hread : (c.peer.fd.isSome && r.pollin) = true
  · rw [if_pos hread]
    cases r.read with
    | error =>
      dsimp only
      split_ifs
      · exact h
      · exact timersOk_fsm henv (fun _ h => Event.noConfusion h) h
    | badHeader subcode => exact timersOk_badMessage henv h
    | closed => exact timersOk_fsm henv (fun _ h => Event.noConfusion h) h
    | done => exact h
  · rw [if_neg hread]
    exact h

theorem timersOk_dispatchMsg {r : Revents} (henv : OpenFits env) (h : TimersOk c.peer) :
    TimersOk (c.sessionDispatchMsg env r).peer := by
  have hfsm : ∀ event, (∀ msg, event ≠ .rcvdOpen msg) → TimersOk (c.fsm env event).peer :=
    fun event hopen => timersOk_fsm henv hopen h
  rw [sessionDispatchMsg]
  split_ifs with _ _ _ _ _ _ _ _ hwrite
  · exact hfsm _ fun _ h => Event.noConfusion h
  · exact hfsm _ fun _ h => Event.noConfusion h
  · exact hfsm _ fun _ h => Event.noConfusion h
  · exact hfsm _ fun _ h => Event.noConfusion h
  · exact h
  · exact hfsm _ fun _ h => Event.noConfusion h
  · exact hfsm _ fun _ h => Event.noConfusion h
  · exact hfsm _ fun _ h => Event.noConfusion h
  · -- there is a connection, so the state is not idle
    refine timersOk_dispatchRead henv (timersOk_sendholdtime h fun hidle => hwrite ?_)
    rw [h.fd hidle]
    simp
  · exact timersOk_dispatchRead henv h

theorem timersOk_acceptOpen {fd : ℕ} {setupFails sockFails : Bool} (henv : OpenFits env)
    (h : TimersOk c.peer) (hidle : c.peer.state ≠ .idle) :
    TimersOk (c.acceptOpen env fd setupFails sockFails).peer := by
  have hfd : TimersOk (c.modify fun p => { p with fd := some fd }).peer :=
    h.of_same ⟨rfl, rfl, rfl, id⟩ fun hs => absurd hs hidle
  rw [acceptOpen]
  split_ifs
  · exact h
  · exact hfd
  · exact timersOk_fsm henv (fun _ h => Event.noConfusion h) hfd

theorem restartDance_kept (env : Env) (c : Cur) :
    Kept (resetPeer c.peer) (c.sessionGracefulRestart env).resetConnection.peer :=
  (Kept.resetPeer sessionGracefulRestart_kept).trans resetConnection_kept

theorem restartDance_idleHold :
    ¬ (c.sessionGracefulRestart env).resetConnection.peer.timers.Running .idleHold := by
  rintro ⟨v, hat⟩
  rw [resetConnection_timers] at hat
  exact (at_stopTimers hat).1.2.1 rfl

/-- The graceful restart dance of `session_accept`. -/
theorem enterConnect_restart (hprev : c.peer.prevState = .established)
    (hrestart : c.peer.capa.neg.grestart.restart = 2) :
    c.enterConnect env = (c.sessionGracefulRestart env).resetConnection := by
  rw [enterConnect, if_pos ⟨hprev, hrestart⟩]

theorem timersOk_enterConnect (hstate : c.peer.state = .connect)
    (hprev : c.peer.prevState = .established) (hrestart : c.peer.capa.neg.grestart.restart = 2)
    (htimes : c.peer.conf.Times) : TimersOk (c.enterConnect env).peer ∧
      (c.enterConnect env).peer.state = .connect := by
  have hk := restartDance_kept env c
  have hs := hk.state.trans hstate
  rw [enterConnect_restart hprev hrestart]
  refine ⟨timersOk_awake ?_ ?_ restartDance_idleHold (fun _ => hk.holdtime)
    (initial_ok hk.holdtime) ?_, hs⟩
  · rw [hs]
    exact fun h => State.noConfusion h
  · rw [hs]
    exact fun h => State.noConfusion h
  · rw [hk.conf]
    exact htimes

theorem timersOk_restartDance (env : Env) (h : TimersOk c.peer)
    (hstate : c.peer.state = .established)
    (hrestart : c.peer.capa.neg.grestart.restart = 2) :
    TimersOk (c.changeState env .connect .conClosed).peer ∧
      (c.changeState env .connect .conClosed).peer.state = .connect :=
  timersOk_enterConnect (c := c.modify fun p => { p with prevState := p.state, state := .connect })
    rfl hstate hrestart h.times

/-- Accepting a connection keeps the timers right for the state. -/
theorem timersOk_accept {fd : ℕ} {setupFails sockFails : Bool} (henv : OpenFits env)
    (h : TimersOk c.peer) : TimersOk (c.sessionAccept env fd setupFails sockFails).peer := by
  unfold sessionAccept
  cases hstate : c.peer.state with
  | connect =>
    have hidle : c.peer.state ≠ .idle := by
      rw [hstate]
      exact fun h => State.noConfusion h
    refine timersOk_acceptOpen henv ?_ hidle
    exact h.of_same ⟨rfl, rfl, rfl, id⟩ fun hs => absurd hs hidle
  | active =>
    dsimp only
    split_ifs
    · exact h
    · refine timersOk_acceptOpen henv h ?_
      rw [hstate]
      exact fun h => State.noConfusion h
  | established =>
    dsimp only
    split_ifs with hrestart
    · have hdance := timersOk_restartDance env h hstate hrestart
      refine timersOk_acceptOpen henv hdance.1 ?_
      rw [hdance.2]
      exact fun h => State.noConfusion h
    · exact h
  | none => exact h
  | idle => exact h
  | opensent => exact h
  | openconfirm => exact h

theorem timersOk_update {data : List UInt8} (h : TimersOk c.peer) :
    TimersOk (c.sessionUpdate env data).peer := by
  rw [sessionUpdate]
  by_cases hstate : c.peer.state ≠ .established
  · rw [if_pos hstate]
    exact h
  rw [if_neg hstate]
  have hidle : c.peer.state ≠ .idle := by
    rw [not_not.mp hstate]
    exact fun h => State.noConfusion h
  dsimp only
  split_ifs
  · exact h
  · rw [trySend]
    split_ifs
    · exact timersOk_conFatal h
    · exact timersOk_startKeepalive (c := c.sessionSendmsg (.update data)) h hidle
  · exact h
  · rw [trySend]
    split_ifs
    · exact timersOk_conFatal h
    · exact timersOk_startKeepalive (c := c.sessionSendmsg (.update data)) h hidle

theorem timersOk_rrefresh {aid : Aid} {subtype : ℕ} (h : TimersOk c.peer) :
    TimersOk (c.sessionRrefresh env aid subtype).peer := by
  rw [sessionRrefresh]
  split_ifs
  · exact h
  · exact timersOk_trySend h

theorem timersOk_neighborRrefresh (h : TimersOk c.peer) :
    TimersOk (c.sessionNeighborRrefresh env).peer := by
  have hfold : ∀ (l : List Aid) (c : Cur), TimersOk c.peer → TimersOk (l.foldl (fun c aid =>
      if c.peer.capa.neg.mp aid ≠ 0 then c.sessionRrefresh env aid 0 else c) c).peer := by
    intro l
    induction l with
    | nil => exact fun c h => h
    | cons aid l ih =>
      intro c h
      refine ih _ ?_
      dsimp only
      split_ifs
      · exact timersOk_rrefresh h
      · exact h
  rw [sessionNeighborRrefresh]
  split_ifs
  · exact h
  · exact hfold _ _ h

theorem timersOk_parseRrefresh {msg : RrefreshMsg} (henv : OpenFits env) (h : TimersOk c.peer) :
    TimersOk (c.parseRrefresh env msg).peer := by
  have hhandle : ∀ subtype, TimersOk (c.sessionHandleRrefresh msg subtype).peer := by
    intro subtype
    rw [sessionHandleRrefresh]
    split
    · exact h
    · split_ifs
      · exact h
      · exact h
  rw [parseRrefresh]
  split_ifs
  · exact hhandle _
  · exact timersOk_badMessage henv h
  · exact hhandle _
  · exact timersOk_badMessage henv h
  · exact h
  · exact hhandle _

theorem timersOk_updateErr {errcode : ErrCode} {subcode : ℕ} (henv : OpenFits env)
    (h : TimersOk c.peer) : TimersOk (c.updateErr env errcode subcode).peer := by
  have hn : TimersOk (c.sessionNotification env errcode subcode).peer := timersOk_notification h
  rw [updateErr]
  generalize c.sessionNotification env errcode subcode = d at hn ⊢
  dsimp only
  have hstop : TimersOk (d.fsm env .stop).peer :=
    timersOk_fsm henv (fun _ h => Event.noConfusion h) hn
  split_ifs
  · exact timersOk_set_idleHold hstop (state_fsm_stop hn)
  · exact hstop
  · exact timersOk_set_idleHold hstop (state_fsm_stop hn)
  · exact hstop
  · exact timersOk_fsm henv (fun _ h => Event.noConfusion h) hn

theorem timersOk_dependon {dependOk : Bool} (henv : OpenFits env) (h : TimersOk c.peer) :
    TimersOk (c.dependon env dependOk).peer := by
  rw [dependon]
  split_ifs
  · exact timersOk_fsm henv (fun _ h => Event.noConfusion h)
      (h.of_same ⟨rfl, rfl, rfl, id⟩ fun hs => h.fd hs)
  · exact timersOk_sessionStop henv (h.of_same ⟨rfl, rfl, rfl, id⟩ fun hs => h.fd hs)
  · exact h

theorem timersOk_neighborClear (henv : OpenFits env) (h : TimersOk c.peer) :
    TimersOk (c.neighborClear env).peer := by
  have hd : TimersOk (c.modify fun p => { p with idleHoldTime := 0 }).peer :=
    h.of_same ⟨rfl, rfl, rfl, id⟩ fun hs => h.fd hs
  rw [neighborClear]
  split_ifs
  · exact timersOk_sessionStop henv hd
  · exact timersOk_set_idleHold (timersOk_sessionStop henv hd) (state_sessionStop hd)

/-- The settings of a reload are those of an initialised peer. -/
theorem timersOk_mergePeer {conf : BgpdConfig} {np : PeerConf} {auth : AuthConf}
    (htimes : (applyDefaults conf np).Times) (h : TimersOk c.peer) :
    TimersOk (c.mergePeer conf np auth).peer := by
  have hd : TimersOk (c.modify fun p => { p with
      conf := applyDefaults conf np, authConf := auth, reconfAction := .keep,
      localBgpid := conf.bgpid }).peer :=
    h.of_same ⟨rfl, rfl, rfl, fun _ => htimes⟩ fun hs => h.fd hs
  rw [mergePeer]
  generalize (c.modify fun p => { p with
      conf := applyDefaults conf np, authConf := auth, reconfAction := .keep,
      localBgpid := conf.bgpid }) = d at hd ⊢
  have he : TimersOk (if d.peer.demoted ≠ 0 ∧ d.peer.conf.demoteGroup = "" then
      d.sessionDemote (-1) else d).peer := by
    split_ifs
    · exact hd.of_same ⟨rfl, rfl, rfl, id⟩ fun hs => hd.fd hs
    · exact hd
  generalize (if d.peer.demoted ≠ 0 ∧ d.peer.conf.demoteGroup = "" then
      d.sessionDemote (-1) else d) = e at he ⊢
  split_ifs
  · exact he
  · exact he
  · exact he
  · exact he

theorem sessionTemplateClone_times {template : PeerConf} {remoteAddr : Rde.BgpdAddr} {id as : ℕ}
    (h : template.Times) : (sessionTemplateClone template remoteAddr id as).Times := by
  rw [sessionTemplateClone]
  split_ifs <;> split <;> exact ⟨h.holdtime, h.minHoldtime, h.connectretry⟩

theorem timersOk_mergeClone {conf : BgpdConfig} {template : PeerConf} (htimes : template.Times)
    (h : TimersOk c.peer) : TimersOk (c.mergeClone conf template).peer := by
  rw [mergeClone]
  split_ifs
  · exact h.of_same ⟨rfl, rfl, rfl, fun _ => sessionTemplateClone_times htimes⟩ fun hs => h.fd hs
  · exact h.of_same ⟨rfl, rfl, rfl, fun _ => sessionTemplateClone_times htimes⟩ fun hs => h.fd hs

/-- Serving a due timer keeps the timers right for the state. -/
theorem timersOk_timerDue (henv : OpenFits env) (h : TimersOk c.peer) :
    TimersOk (c.timerDue env t).peer := by
  cases t with
  | hold => exact timersOk_fsm henv (fun _ h => Event.noConfusion h) h
  | sendHold => exact timersOk_fsm henv (fun _ h => Event.noConfusion h) h
  | connectRetry => exact timersOk_fsm henv (fun _ h => Event.noConfusion h) h
  | keepalive => exact timersOk_fsm henv (fun _ h => Event.noConfusion h) h
  | idleHold => exact timersOk_fsm henv (fun _ h => Event.noConfusion h) h
  | idleHoldReset =>
    exact timersOk_stop (c := c.modify fun p => { p with idleHoldTime := 0 })
      (h.of_same ⟨rfl, rfl, rfl, id⟩ fun hs => h.fd hs)
  | carpUndemote =>
    have hd := timersOk_stop (t := .carpUndemote) h
    rw [timerDue]
    split_ifs
    · exact hd.of_same ⟨rfl, rfl, rfl, id⟩ fun hs => hd.fd hs
    · exact hd
  | restartTimeout =>
    have hd := timersOk_stop (t := .restartTimeout) h
    have hk := sessionGracefulStop_kept (c := c.timerStop .restartTimeout)
    refine hd.of_same ⟨sessionGracefulStop_timers, hk.state, hk.holdtime, fun ht => ?_⟩ fun hs => ?_
    · exact hk.conf.symm ▸ ht
    · exact hk.fd.trans (hd.fd hs)
  | sessionDown =>
    have hd := timersOk_stop (t := .sessionDown) h
    rw [timerDue]
    split_ifs
    · exact hd.of_same ⟨rfl, rfl, rfl, id⟩ fun hs => hd.fd hs
    · exact hd.of_same ⟨rfl, rfl, rfl, id⟩ fun hs => hd.fd hs

/-! ## The step lemma -/

theorem timersOk_throttle {high low : Bool} (h : TimersOk c.peer) :
    TimersOk (c.throttle high low).peer := by
  have hsame : ∀ p : Peer, TimersOk p → ∀ b, TimersOk { p with throttled := b } := fun p hp b =>
    hp.of_same ⟨rfl, rfl, rfl, id⟩ fun hs => hp.fd hs
  rw [throttle]
  split_ifs
  · exact hsame _ (hsame _ h true) false
  · exact hsame _ h true
  · exact hsame _ h false
  · exact h

theorem timersOk_processMsg {msg : InMsg} (henv : OpenFits env)
    (hkeep : ∀ m, msg = .open m → env.fails .keepalive = false) (h : TimersOk c.peer) :
    TimersOk (c.processMsg env msg).peer := by
  cases msg with
  | «open» m => exact fsm_timersOk henv (fun _ _ => hkeep m rfl) h
  | update data => exact timersOk_fsm henv (fun _ h => Event.noConfusion h) h
  | notification m => exact timersOk_fsm henv (fun _ h => Event.noConfusion h) h
  | keepalive => exact timersOk_fsm henv (fun _ h => Event.noConfusion h) h
  | rrefresh m => exact timersOk_parseRrefresh henv h

end Cur

/-- What the configuration promises about an event: `parse.y` checks the settings, and those of a
    template are the ones of an initialised peer. -/
structure Promised (env : Env) (event : PeerEvent) : Prop where
  conf : env.conf.Parsed
  peer : ∀ np auth, event = .mergePeer np auth → np.Parsed
  clone : ∀ template, event = .mergeClone template → template.Times

/-- There is memory for OPEN messages and for the KEEPALIVE message that answers one. -/
structure Fits (env : Env) (event : PeerEvent) : Prop where
  openFits : OpenFits env
  keepalive : ∀ m, event = .message (.open m) → env.fails .keepalive = false

namespace Cur

/-- Every event keeps the invariant of the timers. -/
theorem handle_timersOk (hprom : Promised env event) (hfits : Fits env event)
    (h : TimersOk c.peer) : TimersOk (c.handle env event).peer := by
  have henv := hfits.openFits
  cases event with
  | init =>
    rw [handle, if_neg h.state]
    exact h
  | startClone =>
    exact timersOk_fsm henv (fun _ h => Event.noConfusion h)
      (timersOk_set_free h rfl (by decide))
  | timers =>
    change TimersOk (c.checkTimers env).peer
    unfold checkTimers
    split
    · exact timersOk_timerDue henv h
    · exact h
  | throttle high low => exact timersOk_throttle h
  | accept fd setupFails sockFails => exact timersOk_accept henv h
  | poll r => exact timersOk_dispatchMsg henv h
  | message msg =>
    rw [handle]
    split_ifs
    · exact timersOk_processMsg henv (fun m hm => hfits.keepalive m (by rw [hm])) h
    · exact h
  | update data => exact timersOk_update h
  | updateErr errcode subcode => exact timersOk_updateErr henv h
  | refresh aid subtype => exact timersOk_rrefresh h
  | restarted aid =>
    change TimersOk (c.restarted aid).peer
    rw [restarted]
    split_ifs
    · exact h.of_same ⟨rfl, rfl, rfl, id⟩ fun hs => h.fd hs
    · exact h
  | dependon dependOk => exact timersOk_dependon henv h
  | neighborUp =>
    have hd : TimersOk (c.fsm env .start).peer :=
      timersOk_fsm henv (fun _ h => Event.noConfusion h) h
    exact hd.of_same ⟨rfl, rfl, rfl, fun ht => ⟨ht.holdtime, ht.minHoldtime, ht.connectretry⟩⟩
      fun hs => hd.fd hs
  | neighborDown =>
    exact timersOk_sessionStop henv (h.of_same
      ⟨rfl, rfl, rfl, fun ht => ⟨ht.holdtime, ht.minHoldtime, ht.connectretry⟩⟩ fun hs => h.fd hs)
  | neighborClear => exact timersOk_neighborClear henv h
  | neighborRrefresh => exact timersOk_neighborRrefresh h
  | neighborDestroy =>
    change TimersOk (c.neighborDestroy).peer
    rw [neighborDestroy]
    split_ifs
    · exact h.of_same ⟨rfl, rfl, rfl, id⟩ fun hs => h.fd hs
    · exact h
  | mergePeer np auth =>
    exact timersOk_mergePeer (PeerConf.Parsed.times hprom.conf (hprom.peer np auth rfl)) h
  | mergeClone template => exact timersOk_mergeClone (hprom.clone template rfl) h
  | setReconf action => exact h.of_same ⟨rfl, rfl, rfl, id⟩ fun hs => h.fd hs

/-! ## Handling a due timer -/

/-- What the handler of the timer `t` leaves: of the old times not that of `t`, new times of the
    timers that start with the loss of a connection, and later times. -/
abbrev Handled (now : ℕ) (t : TimerType) (th th' : TimerHead) : Prop :=
  Moves (· ≠ t) (fun t' => t.conn = true ∧ t'.lost = true) (after now) th th'

/-- The session ends, so nothing of the timers of a connection is left. -/
theorem handled_of_idle {th th' : TimerHead} (ht : t.conn = true)
    (h : Moves notConn lost never th th') : Handled env.now t th th' := by
  refine h.mono (fun t' ht' heq => ?_) (fun t' h => ⟨ht, h⟩) (fun v h => h.elim)
  have hconn : t.conn = false := heq ▸ ht'.1
  rw [ht] at hconn
  cases hconn

/-- A timer of a connection does not run in `STATE_IDLE`. -/
theorem TimersOk.awake {p : Peer} (h : TimersOk p) (ht : t.conn = true)
    (hrun : p.timers.Running t) :
    p.state ≠ .idle := fun hidle => h.conn hidle t ht hrun

theorem handled_keepalive (h : TimersOk c.peer) (hidle : c.peer.state ≠ .idle) :
    Handled env.now .keepalive c.peer.timers (c.sessionKeepalive env).peer.timers := by
  rw [sessionKeepalive, trySend]
  split_ifs
  · unfold fsmConFatal
    split
    · exact absurd ‹_› h.state
    · exact absurd ‹_› hidle
    · exact handled_of_idle rfl changeState_idle_moves
  · exact startTimerKeepalive_moves (c := c.sessionSendmsg .keepalive) h.holdtime

/-- `Timer_Hold` and `Timer_SendHold` end the session. -/
theorem fsm_hold_moves {event : Event} (hevent : event = .timerHoldtime ∨ event = .timerSendhold)
    (h : TimersOk c.peer) (hidle : c.peer.state ≠ .idle) :
    Moves notConn lost never c.peer.timers (c.fsm env event).peer.timers := by
  rw [fsm]
  cases hstate : c.peer.state with
  | none => exact absurd hstate h.state
  | idle => exact absurd hstate hidle
  | connect => rcases hevent with rfl | rfl <;> exact changeState_idle_moves
  | active => rcases hevent with rfl | rfl <;> exact changeState_idle_moves
  | opensent => rcases hevent with rfl | rfl <;> exact notifyIdle_moves
  | openconfirm => rcases hevent with rfl | rfl <;> exact notifyIdle_moves
  | established => rcases hevent with rfl | rfl <;> exact notifyIdle_moves

theorem fsm_keepalive_handled (h : TimersOk c.peer) (hidle : c.peer.state ≠ .idle) :
    Handled env.now .keepalive c.peer.timers (c.fsm env .timerKeepalive).peer.timers := by
  rw [fsm]
  cases hstate : c.peer.state with
  | none => exact absurd hstate h.state
  | idle => exact absurd hstate hidle
  | connect => exact handled_of_idle rfl changeState_idle_moves
  | active => exact handled_of_idle rfl changeState_idle_moves
  | opensent => exact handled_of_idle rfl notifyIdle_moves
  | openconfirm => exact handled_keepalive h hidle
  | established => exact handled_keepalive h hidle

/-- The connection is tried again, with the timer set to a later time. -/
theorem fsm_connretry_handled (henv : OpenFits env) (h : TimersOk c.peer)
    (hidle : c.peer.state ≠ .idle) :
    Handled env.now .connectRetry c.peer.timers (c.fsm env .timerConnretry).peer.timers := by
  rw [fsm]
  cases hstate : c.peer.state with
  | none => exact absurd hstate h.state
  | idle => exact absurd hstate hidle
  | connect =>
    have hset : TimersOk (c.timerSet env.now .connectRetry c.peer.conf.connectretry).peer :=
      timersOk_set h hidle (by decide)
    exact (Moves.set_later h.times.connectretry).trans_of_kept
      ((connected_sessionConnect henv hset hstate).moves _)
  | active =>
    have hhold := h.initial (by rw [hstate]; rfl)
    have hmoves := (activeConnect_connected .timerConnretry henv h hstate).moves fun t' =>
      TimerType.connectRetry.conn = true ∧ t'.lost = true
    refine Moves.trans_of_kept (Moves.set_later ?_) hmoves
    rw [hhold]
    decide
  | opensent => exact handled_of_idle rfl notifyIdle_moves
  | openconfirm => exact handled_of_idle rfl notifyIdle_moves
  | established => exact handled_of_idle rfl notifyIdle_moves

/-- The case of a due timer in the main loop. -/
theorem timerDue_handled (henv : OpenFits env) (h : TimersOk c.peer)
    (hrun : c.peer.timers.Running t) :
    Handled env.now t c.peer.timers (c.timerDue env t).peer.timers := by
  cases t with
  | hold => exact handled_of_idle rfl (fsm_hold_moves (Or.inl rfl) h (TimersOk.awake h rfl hrun))
  | sendHold =>
    exact handled_of_idle rfl (fsm_hold_moves (Or.inr rfl) h (TimersOk.awake h rfl hrun))
  | connectRetry => exact fsm_connretry_handled henv h (TimersOk.awake h rfl hrun)
  | keepalive => exact fsm_keepalive_handled h (TimersOk.awake h rfl hrun)
  | idleHold =>
    have hidle := h.idleHold hrun
    change Handled env.now .idleHold c.peer.timers (c.fsm env .start).peer.timers
    rw [fsm, hidle]
    exact (idleStart_ok henv h hidle).2.mono (fun _ h => h) (fun _ h => h.elim) (fun _ h => h)
  | idleHoldReset => exact Moves.stop
  | carpUndemote =>
    rw [timerDue]
    split_ifs
    · exact Moves.stop
    · exact Moves.stop
  | restartTimeout =>
    change Handled env.now .restartTimeout c.peer.timers
      (c.timerStop .restartTimeout).sessionGracefulStop.peer.timers
    rw [sessionGracefulStop_timers]
    exact Moves.stop
  | sessionDown =>
    rw [timerDue]
    split_ifs
    · exact Moves.stop
    · exact Moves.stop

/-- A due timer that was handled is stopped or set to a time at least a second from now. -/
theorem not_at_of_handled {th th' : TimerHead} {now v : ℕ} (h : Handled now t th th')
    (hat : th'.At t v) : now + monotimeRes ≤ v := by
  rcases h t v hat with h | h | h
  · exact absurd rfl h.1
  · have hconn := not_conn_of_lost h.2
    rw [h.1] at hconn
    cases hconn
  · exact h

end Cur

/-! ## Iterations at a fixed time -/

instance : Fintype TimerType where
  elems := {.connectRetry, .keepalive, .hold, .sendHold, .idleHold, .idleHoldReset, .carpUndemote,
    .restartTimeout, .sessionDown}
  complete t := by cases t <;> decide

/-- What is left to do for a due timer: the timers of a connection may start three others. -/
def TimerType.weight (t : TimerType) : ℕ := if t.conn then 4 else 1

/-- `Due` as a test. -/
def TimerHead.isDue (th : TimerHead) (now : ℕ) (t : TimerType) : Bool :=
  th.list.any fun x => x.type = t && x.val.any (· ≤ now)

theorem TimerHead.isDue_iff {th : TimerHead} {now : ℕ} : th.isDue now t = true ↔ th.Due now t := by
  constructor
  · intro h
    obtain ⟨⟨t', val⟩, hx, hdue⟩ := List.any_eq_true.mp h
    obtain ⟨rfl, hval⟩ := by simpa using hdue
    cases val with
    | none => simp at hval
    | some v => exact ⟨v, hx, by simpa using hval⟩
  · rintro ⟨v, hat, hle⟩
    exact List.any_eq_true.mpr ⟨_, hat, by simpa using hle⟩

/-- How much work there is at the time. -/
def TimerHead.load (th : TimerHead) (now : ℕ) : ℕ :=
  ∑ t : TimerType, if th.isDue now t then t.weight else 0

theorem TimerHead.load_le (th : TimerHead) (now : ℕ) : th.load now ≤ 21 := by
  have h : ∀ t : TimerType, (if th.isDue now t then t.weight else 0) ≤ t.weight := by
    intro t
    split_ifs
    · exact Nat.le_refl _
    · exact Nat.zero_le _
  exact (Finset.sum_le_sum fun t _ => h t).trans (by decide)

/-- Handling a due timer takes more off the load than it puts on it. -/
theorem load_lt_of_handled {th th' : TimerHead} {now : ℕ} (hdue : th.Due now t)
    (h : Cur.Handled now t th th') : th'.load now < th.load now := by
  have hterm : ∀ t' : TimerType, (if th'.isDue now t' then t'.weight else 0) +
      (if t' = t then t.weight else 0) ≤ (if th.isDue now t' then t'.weight else 0) +
      (if t.conn = true ∧ t'.lost = true then 1 else 0) := by
    intro t'
    by_cases heq : t' = t
    · subst heq
      have hgone : th'.isDue now t' = false := by
        rw [Bool.eq_false_iff]
        intro hd
        obtain ⟨v, hat, hle⟩ := TimerHead.isDue_iff.mp hd
        have hlater := Cur.not_at_of_handled h hat
        have : 0 < monotimeRes := by decide
        omega
      rw [hgone, if_neg Bool.false_ne_true, if_pos rfl, TimerHead.isDue_iff.mpr hdue, if_pos rfl]
      omega
    · rw [if_neg heq]
      by_cases hd : th'.isDue now t' = true
      · rw [if_pos hd]
        obtain ⟨v, hat, hle⟩ := TimerHead.isDue_iff.mp hd
        rcases h t' v hat with h | h | h
        · rw [if_pos (TimerHead.isDue_iff.mpr ⟨v, h.2, hle⟩)]
          omega
        · have hw : t'.weight = 1 := by
            rw [TimerType.weight, Cur.not_conn_of_lost h.2]
            rfl
          rw [if_pos h]
          omega
        · have : 0 < monotimeRes := by decide
          change now + monotimeRes ≤ v at h
          omega
      · rw [if_neg hd]
        omega
  have hsum := Finset.sum_le_sum fun t' (_ : t' ∈ Finset.univ) => hterm t'
  rw [Finset.sum_add_distrib, Finset.sum_add_distrib, Finset.sum_ite_eq' Finset.univ t,
    if_pos (Finset.mem_univ t)] at hsum
  have hnew : (∑ t' : TimerType, if t.conn = true ∧ t'.lost = true then 1 else 0) < t.weight := by
    cases t <;> decide
  change (∑ t' : TimerType, _) < ∑ t' : TimerType, _
  omega

namespace Cur

/-- The check of the timers in one iteration of the main loop. -/
theorem checkTimers_handled (henv : OpenFits env) (h : TimersOk c.peer)
    (hdue : c.peer.timers.nextisdue env.now = some t) :
    Handled env.now t c.peer.timers (c.checkTimers env).peer.timers := by
  rw [checkTimers, hdue]
  exact timerDue_handled henv h (TimerHead.due_of_nextisdue hdue).running

theorem checkTimers_timersOk (henv : OpenFits env) (h : TimersOk c.peer) :
    TimersOk (c.checkTimers env).peer := by
  unfold checkTimers
  split
  · exact timersOk_timerDue henv h
  · exact h

/-- Iterations of the main loop, as far as the timers of the peer are concerned. -/
def loopTimers (c : Cur) (envs : List Env) : Cur := envs.foldl (fun c env => c.checkTimers env) c

/-- Iterations at one time use up the load. -/
theorem loopTimers_done {now : ℕ} {envs : List Env}
    (henvs : ∀ env ∈ envs, env.now = now ∧ OpenFits env) (h : TimersOk c.peer)
    (hload : c.peer.timers.load now ≤ envs.length) :
    ¬ (c.loopTimers envs).peer.timers.Due now t := by
  induction envs generalizing c with
  | nil =>
    intro hdue
    have hdue : c.peer.timers.Due now t := hdue
    have hle : t.weight ≤ c.peer.timers.load now := by
      have hone := Finset.single_le_sum (s := Finset.univ)
        (f := fun t' : TimerType => if c.peer.timers.isDue now t' then t'.weight else 0)
        (fun _ _ => Nat.zero_le _) (Finset.mem_univ t)
      rwa [if_pos (TimerHead.isDue_iff.mpr hdue)] at hone
    have hpos : 0 < t.weight := by cases t <;> decide
    have := hload
    rw [List.length_nil] at this
    omega
  | cons env envs ih =>
    obtain ⟨hnow, henv⟩ := henvs env List.mem_cons_self
    have hrest := fun env h => henvs env (List.mem_cons_of_mem _ h)
    refine ih (c := c.checkTimers env) hrest (checkTimers_timersOk henv h) ?_
    rw [List.length_cons] at hload
    cases hdue : c.peer.timers.nextisdue env.now with
    | none =>
      have hzero : c.peer.timers.load now = 0 := by
        refine Finset.sum_eq_zero fun t' _ => if_neg fun hd => ?_
        exact TimerHead.not_due_of_nextisdue hdue (hnow ▸ TimerHead.isDue_iff.mp hd)
      have hsame : c.checkTimers env = c := by rw [checkTimers, hdue]
      rw [hsame, hzero]
      exact Nat.zero_le _
    | some t' =>
      have hlt := load_lt_of_handled (hnow ▸ TimerHead.due_of_nextisdue hdue)
        (hnow ▸ checkTimers_handled henv h hdue)
      omega

end Cur

/-! ## Runs -/

/-- A peer is initialised, and then the events follow. -/
def runPeer (p : Peer) (env : Env) (steps : List (Env × PeerEvent)) : Cur :=
  steps.foldl (fun c s => c.handle s.1 s.2) (Cur.initPeer env { peer := p })

/-- The timers of a peer cannot starve each other: what is due is reported, what is reported is
    handled for good, and nothing is due after finitely many iterations at one time. -/
structure TimersServed (fits : Env → Prop) (c : Cur) : Prop where
  once : (c.peer.timers.list.map Timer.type).Nodup
  sorted : c.peer.timers.list.Pairwise Timer.Before
  reported : ∀ now t, c.peer.timers.nextisdue now = some t → c.peer.timers.Due now t
  complete : ∀ now, c.peer.timers.nextisdue now = none → ∀ t, ¬ c.peer.timers.Due now t
  handled : ∀ env t, fits env → c.peer.timers.nextisdue env.now = some t →
    ∀ v, (c.checkTimers env).peer.timers.At t v → env.now < v
  finite : ∀ now envs, (∀ env ∈ envs, env.now = now ∧ fits env) → 21 ≤ envs.length →
    ∀ t, ¬ (c.loopTimers envs).peer.timers.Due now t

theorem TimersOk.served (h : TimersOk c.peer) : TimersServed OpenFits c where
  once := c.peer.timers.once
  sorted := c.peer.timers.sorted
  reported _ _ hdue := TimerHead.due_of_nextisdue hdue
  complete _ hdue _ := TimerHead.not_due_of_nextisdue hdue
  handled env t henv hdue v hat := by
    have hlater := Cur.not_at_of_handled (Cur.checkTimers_handled henv h hdue) hat
    have : 0 < monotimeRes := by decide
    omega
  finite now envs henvs hlen t :=
    Cur.loopTimers_done henvs h ((TimerHead.load_le _ _).trans hlen)

/-- `init_peer` establishes the invariant. -/
theorem initPeer_timersOk (hp : c.peer.conf.Parsed) (hconf : env.conf.Parsed)
    (henv : OpenFits env) : TimersOk (c.initPeer env).peer := by
  have htimes : (c.initFields env).peer.conf.Times := by
    have heq : (c.initFields env).peer.conf = Cur.applyDefaults env.conf c.peer.conf := by
      rw [Cur.initFields]
      split_ifs <;> rfl
    rw [heq]
    exact PeerConf.Parsed.times hconf hp
  have hidle : TimersOk ((c.initFields env).changeState env .idle .none).peer :=
    Cur.timersOk_idle htimes
  rw [Cur.initPeer]
  generalize (c.initFields env).changeState env .idle .none = d at hidle ⊢
  have hstart : TimersOk (if d.peer.conf.down then d else d.fsm env .start).peer := by
    split_ifs
    · exact hidle
    · exact Cur.timersOk_fsm henv (fun _ h => Event.noConfusion h) hidle
  generalize (if d.peer.conf.down then d else d.fsm env .start) = e at hstart ⊢
  rw [Cur.initDemote]
  split_ifs
  · exact hstart.of_same ⟨rfl, rfl, rfl, id⟩ fun hs => hstart.fd hs
  · exact hstart

theorem run_timersOk {steps : List (Env × PeerEvent)}
    (hsteps : ∀ s ∈ steps, Promised s.1 s.2 ∧ Fits s.1 s.2) (h : TimersOk c.peer) :
    TimersOk (steps.foldl (fun c s => c.handle s.1 s.2) c).peer := by
  induction steps generalizing c with
  | nil => exact h
  | cons s steps ih =>
    obtain ⟨hprom, hfits⟩ := hsteps s List.mem_cons_self
    exact ih (fun s hs => hsteps s (List.mem_cons_of_mem _ hs))
      (Cur.handle_timersOk hprom hfits h)

/-- In every run of a peer in which there is memory for the OPEN messages and for the KEEPALIVE
    messages that answer one, no timer is starved. -/
theorem timers_not_starved (p : Peer) (env : Env) (steps : List (Env × PeerEvent))
    (hp : p.conf.Parsed) (hconf : env.conf.Parsed) (henv : OpenFits env)
    (hsteps : ∀ s ∈ steps, Promised s.1 s.2 ∧ Fits s.1 s.2) :
    TimersServed OpenFits (runPeer p env steps) :=
  (run_timersOk hsteps (initPeer_timersOk (c := { peer := p }) hp hconf henv)).served

/-- The neighbor of the examples. -/
def sampleConf : PeerConf := { id := 2, remoteAs := 65001, localAs := 65000, localShortAs := 65000 }

/-- The surroundings of the examples, at a second of the monotonic clock. -/
def sampleEnv (second : ℕ) (connect : ConnectResult) (fails : BgpMsg → Bool) : Env where
  now := second * monotimeRes
  conf := { bgpid := 1, holdtime := 90, minHoldtime := 3, connectretry := 120, staletime := 180 }
  connect := connect
  fails := fails

/-- There is no memory for OPEN messages. -/
def noOpen : BgpMsg → Bool
  | .open _ => true
  | _ => false

theorem timers_not_starved_sample :
    TimersServed OpenFits (runPeer { conf := sampleConf, addr := 0 }
      (sampleEnv 1 .noSocket fun _ => false)
      [(sampleEnv 6 (.inProgress 7) fun _ => false, .timers),
       (sampleEnv 6 .noSocket fun _ => false, .poll { pollout := true }),
       (sampleEnv 7 .noSocket fun _ => false, .message .keepalive)]) := by
  refine timers_not_starved _ _ _ ⟨Or.inl rfl, Or.inl rfl⟩ ⟨by decide, by decide, by decide⟩
    (fun _ => rfl) fun s hs => ?_
  have hconf : s.1.conf.Parsed ∧ (∀ m, s.1.fails m = false) ∧
      ((∀ np auth, s.2 ≠ .mergePeer np auth) ∧ ∀ template, s.2 ≠ .mergeClone template) := by
    simp only [List.mem_cons, List.not_mem_nil, or_false] at hs
    rcases hs with rfl | rfl | rfl <;>
      exact ⟨⟨by decide, by decide, by decide⟩, fun _ => rfl,
        (fun _ _ h => PeerEvent.noConfusion h), (fun _ h => PeerEvent.noConfusion h)⟩
  exact ⟨⟨hconf.1, fun np auth h => absurd h (hconf.2.2.1 np auth),
      fun t h => absurd h (hconf.2.2.2 t)⟩,
    ⟨fun m => hconf.2.1 _, fun _ _ => hconf.2.1 _⟩⟩

/-- There is no memory for the OPEN message of a connection that comes up: the peer is idle for a
    moment and then in `STATE_OPENSENT` with the idle timer running, which nothing stops. -/
theorem timer_starved : ¬ ∀ (p : Peer) (env : Env) (steps : List (Env × PeerEvent)),
    p.conf.Parsed → env.conf.Parsed → (∀ s ∈ steps, Promised s.1 s.2) →
    TimersServed (fun _ => True) (runPeer p env steps) := by
  intro h
  have hserved := h { conf := sampleConf, addr := 0 } (sampleEnv 1 .noSocket fun _ => false)
    [(sampleEnv 6 (.inProgress 7) fun _ => false, .timers),
     (sampleEnv 6 .noSocket noOpen, .poll { pollout := true })]
    ⟨Or.inl rfl, Or.inl rfl⟩ ⟨by decide, by decide, by decide⟩ (by
      intro s hs
      simp only [List.mem_cons, List.not_mem_nil, or_false] at hs
      rcases hs with rfl | rfl <;>
        exact ⟨⟨by decide, by decide, by decide⟩, (fun _ _ h => PeerEvent.noConfusion h),
          (fun _ h => PeerEvent.noConfusion h)⟩)
  have hlater := hserved.handled (sampleEnv 6 .noSocket fun _ => false) .idleHold trivial
    (by decide +kernel) (6 * monotimeRes) (by
      change (⟨.idleHold, some (6 * monotimeRes)⟩ : Timer) ∈ _
      decide +kernel)
  exact absurd hlater (Nat.lt_irrefl _)

end Bgpd.Session
