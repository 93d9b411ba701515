import Bgpd.Session.Frame

/-!
# Due Timers

Every iteration of the main loop handles the first due timer of a peer. An invariant tells which
timers can run in which state; with it the handler of a due timer stops the timer or sets it to a
later time.

## Main definitions

- `TimersOk`: which timers run in which state
- `Moves`: where the running timers come from

## Main results

- `fsm_timersOk`, `handle_timersOk`: every event keeps the invariant
- `timerDue_moves`: what is left of a timer that was due
-/

namespace Bgpd.Session

open Rde (Aid)
open TimerHead (at_set at_stop)

/-! ## Predicates -/

/-- What `parse.y` checks or sets itself. -/
structure BgpdConfig.Parsed (conf : BgpdConfig) : Prop where
  holdtime : 3 ≤ conf.holdtime
  minHoldtime : 3 ≤ conf.minHoldtime
  connectretry : 1 ≤ conf.connectretry

/-- What `parse.y` checks of a neighbor; 0 stands for a setting that is not there. -/
structure PeerConf.Parsed (conf : PeerConf) : Prop where
  holdtime : conf.holdtime = 0 ∨ 3 ≤ conf.holdtime
  minHoldtime : conf.minHoldtime = 0 ∨ 3 ≤ conf.minHoldtime

/-- The settings of a peer that was initialised. -/
structure PeerConf.Times (conf : PeerConf) : Prop where
  holdtime : 3 ≤ conf.holdtime
  minHoldtime : 3 ≤ conf.minHoldtime
  connectretry : 1 ≤ conf.connectretry

theorem PeerConf.Parsed.times {conf : BgpdConfig} {p : PeerConf} (hconf : conf.Parsed)
    (hp : p.Parsed) : (Cur.applyDefaults conf p).Times where
  holdtime := by
    have := hconf.holdtime
    have := hp.holdtime
    simp only [Cur.applyDefaults]
    split_ifs <;> omega
  minHoldtime := by
    have := hconf.minHoldtime
    have := hp.minHoldtime
    simp only [Cur.applyDefaults]
    split_ifs <;> omega
  connectretry := by
    have := hconf.connectretry
    simp only [Cur.applyDefaults]
    split_ifs <;> omega

/-- The timers that only run with a connection or on the way to one. -/
def TimerType.conn : TimerType → Bool
  | .connectRetry | .keepalive | .hold | .sendHold => true
  | _ => false

/-- The timers that start with the loss of a connection. -/
def TimerType.lost : TimerType → Bool
  | .idleHold | .restartTimeout | .sessionDown => true
  | _ => false

/-- The hold time was not negotiated yet. -/
def State.initial : State → Bool
  | .idle | .connect | .active | .opensent => true
  | _ => false

/-- The timers and the fields that they are set from. -/
structure TimersOk (p : Peer) : Prop where
  state : p.state ≠ .none
  conn : p.state = .idle → ∀ t, t.conn = true → ¬ p.timers.Running t
  idleHold : p.timers.Running .idleHold → p.state = .idle
  fd : p.state = .idle → p.fd = none
  initial : p.state.initial = true → p.holdtime = intervalHoldInitial
  holdtime : p.holdtime = 0 ∨ 3 ≤ p.holdtime
  times : p.conf.Times

/-- Every running timer was running before and is one of `kept`, or it is one of `new`, or its time
    is one of `later`. -/
def Moves (kept new : TimerType → Prop) (later : ℕ → Prop) (th th' : TimerHead) : Prop :=
  ∀ t v, th'.At t v → (kept t ∧ th.At t v) ∨ new t ∨ later v

/-- All timers. -/
abbrev anyTimer : TimerType → Prop := fun _ => True

/-- No time. -/
abbrev never : ℕ → Prop := fun _ => False

/-- At least a second from now. -/
abbrev after (now : ℕ) : ℕ → Prop := fun v => now + monotimeRes ≤ v

/-- The timers that start with the loss of a connection. -/
abbrev lost : TimerType → Prop := fun t => t.lost = true

namespace Moves

variable {kept kept' new new' : TimerType → Prop} {later later' : ℕ → Prop}
  {th th' th'' : TimerHead} {now offset : ℕ} {t : TimerType}

theorem refl : Moves anyTimer new later th th := fun _ _ h => Or.inl ⟨trivial, h⟩

theorem mono (h : Moves kept new later th th') (hkept : ∀ t, kept t → kept' t)
    (hnew : ∀ t, new t → new' t) (hlater : ∀ v, later v → later' v) :
    Moves kept' new' later' th th' := by
  intro t v hat
  rcases h t v hat with h | h | h
  · exact Or.inl ⟨hkept t h.1, h.2⟩
  · exact Or.inr (Or.inl (hnew t h))
  · exact Or.inr (Or.inr (hlater v h))

/-- The second step may keep less. -/
theorem trans (h : Moves anyTimer new later th th') (h' : Moves kept new later th' th'') :
    Moves kept new later th th'' := by
  intro t v hat
  rcases h' t v hat with ⟨hkept, hat'⟩ | hnew
  · exact (h t v hat').imp_left fun h => ⟨hkept, h.2⟩
  · exact Or.inr hnew

/-- The first step may keep less. -/
theorem trans_of_kept (h : Moves kept new later th th') (h' : Moves anyTimer new later th' th'') :
    Moves kept new later th th'' := by
  intro t v hat
  rcases h' t v hat with ⟨-, hat'⟩ | hnew
  · exact h t v hat'
  · exact Or.inr hnew

/-- A timer of `new` is set. -/
theorem set_new (ht : new t) : Moves anyTimer new later th (th.set now t offset) := by
  intro t' v hat
  rcases at_set.mp hat with ⟨rfl, -⟩ | ⟨-, hat⟩
  · exact Or.inr (Or.inl ht)
  · exact Or.inl ⟨trivial, hat⟩

/-- A timer is set to a later time; its old time is gone. -/
theorem set_later (hoffset : 1 ≤ offset) :
    Moves (· ≠ t) new (after now) th (th.set now t offset) := by
  intro t' v hat
  rcases at_set.mp hat with ⟨-, rfl⟩ | ⟨hne, hat⟩
  · refine Or.inr (Or.inr ?_)
    have := Nat.mul_le_mul_right monotimeRes hoffset
    change now + monotimeRes ≤ _
    omega
  · exact Or.inl ⟨hne, hat⟩

theorem stop : Moves (· ≠ t) new later th (th.stop t) := fun _ _ hat => Or.inl (at_stop.mp hat)

/-- What is kept does not matter. -/
theorem any (h : Moves kept new later th th') : Moves anyTimer new later th th' :=
  h.mono (fun _ _ => trivial) (fun _ h => h) (fun _ h => h)

end Moves

/-- The invariant outside of `STATE_IDLE`. -/
theorem timersOk_awake {p : Peer} (hnone : p.state ≠ .none) (hidle : p.state ≠ .idle)
    (hrun : ¬ p.timers.Running .idleHold)
    (hinitial : p.state.initial = true → p.holdtime = intervalHoldInitial)
    (hholdtime : p.holdtime = 0 ∨ 3 ≤ p.holdtime) (htimes : p.conf.Times) : TimersOk p where
  state := hnone
  conn := fun h => absurd h hidle
  idleHold := fun h => absurd h hrun
  fd := fun h => absurd h hidle
  initial := hinitial
  holdtime := hholdtime
  times := htimes

theorem TimersOk.not_idleHold {p : Peer} (h : TimersOk p) (hidle : p.state ≠ .idle) :
    ¬ p.timers.Running .idleHold := fun hrun => hidle (h.idleHold hrun)

namespace Cur

variable {env : Env} {c : Cur} {event : Event} {t : TimerType}

/-! ## `STATE_IDLE` -/

/-- The timers that stop with a connection, as a condition on what keeps running. -/
abbrev notConn : TimerType → Prop := fun t => t.conn = false ∧ t ≠ .idleHold ∧ t ≠ .idleHoldReset

theorem at_stopTimers {v : ℕ} (h : c.stopTimers.peer.timers.At t v) :
    notConn t ∧ c.peer.timers.At t v := by
  simp only [stopTimers, timerStop_peer, at_stop] at h
  obtain ⟨h1, h2, h3, h4, h5, h6, hat⟩ := h
  refine ⟨⟨?_, h2, h1⟩, hat⟩
  cases t <;> first | rfl | contradiction

/-- The loss of a session only starts timers. -/
theorem sessionLost_moves : Moves anyTimer lost never c.peer.timers
    (c.sessionLost env event).peer.timers := by
  rw [sessionLost]
  split_ifs
  · exact Moves.set_new (by rfl)
  · rw [sessionGracefulRestart_timers]
    have h1 : Moves anyTimer lost never c.peer.timers
        (c.timerSet env.now .idleHold 0).peer.timers := Moves.set_new (by rfl)
    exact (h1.trans (Moves.set_new (by rfl))).trans (Moves.set_new (by rfl))
  · have h1 : Moves anyTimer lost never c.peer.timers
        (c.timerSet env.now .idleHold c.peer.idleHoldTime).peer.timers := Moves.set_new (by rfl)
    exact h1.trans (Moves.set_new (by rfl))

theorem enterIdle_front_moves : Moves notConn lost never c.peer.timers
    c.idleDemote.resetConnection.sessionMd5Reload.idleAnnounce.peer.timers := by
  rw [idleAnnounce_kept.2, sessionMd5Reload_peer, resetConnection_timers]
  intro t v hat
  have h := at_stopTimers hat
  rw [modify_peer, idleDemote_kept.2] at h
  exact Or.inl h

theorem enterIdle_moves : Moves notConn lost never c.peer.timers
    (c.enterIdle env event).peer.timers := by
  refine enterIdle_front_moves.trans_of_kept ?_
  rw [enterIdle]
  split
  · exact Moves.refl
  · exact sessionLost_moves
  · split_ifs
    · exact Moves.set_new (by rfl)
    · exact Moves.refl

/-- `change_state` to `STATE_IDLE`. -/
theorem changeState_idle_moves : Moves notConn lost never c.peer.timers
    (c.changeState env .idle event).peer.timers := enterIdle_moves

theorem changeState_idle_kept (env : Env) (event : Event) (c : Cur) :
    Kept (resetPeer { c.peer with state := .idle })
    (c.changeState env .idle event).peer := by
  have h := enterIdle_kept env event
    (c.modify fun p => { p with prevState := p.state, state := .idle })
  exact ⟨h.conf, h.addr, h.template, h.state, h.reconfAction, h.dependOk, h.fd, h.holdtime⟩

theorem not_conn_of_lost (h : t.lost = true) : t.conn = false := by
  cases t <;> first | rfl | cases h

/-- Entering `STATE_IDLE` restores the invariant, whatever held before. -/
theorem timersOk_idle (htimes : c.peer.conf.Times) :
    TimersOk (c.changeState env .idle event).peer := by
  have h := changeState_idle_kept env event c
  have hstate : (c.changeState env .idle event).peer.state = .idle := h.state
  have hholdtime : (c.changeState env .idle event).peer.holdtime = intervalHoldInitial := h.holdtime
  exact {
    state := by
      rw [hstate]
      exact fun h => State.noConfusion h
    conn := by
      rintro - t ht ⟨v, hat⟩
      rcases changeState_idle_moves t v hat with h | h | h
      · exact absurd ht (by simp [h.1.1])
      · exact absurd ht (by simp [not_conn_of_lost h])
      · exact h
    idleHold := fun _ => hstate
    fd := fun _ => h.fd
    initial := fun _ => hholdtime
    holdtime := by
      rw [hholdtime]
      exact Or.inr (by decide)
    times := by
      rw [h.conf]
      exact htimes }

/-! ## Messages to the neighbor -/

/-- The settings survive and the timers that are new start with the loss of a connection. -/
structure Weak (p p' : Peer) : Prop where
  times : p.conf.Times → p'.conf.Times
  moves : Moves anyTimer lost never p.timers p'.timers

theorem Weak.refl (p : Peer) : Weak p p := ⟨id, Moves.refl⟩

theorem Weak.trans {p p' p'' : Peer} (h : Weak p p') (h' : Weak p' p'') : Weak p p'' :=
  ⟨h'.times ∘ h.times, h.moves.trans h'.moves⟩

theorem weak_idle : Weak c.peer (c.changeState env .idle event).peer := by
  refine ⟨fun h => ?_, changeState_idle_moves.any⟩
  rw [(changeState_idle_kept env event c).conf]
  exact h

theorem weak_conFatal : Weak c.peer (c.fsmConFatal env).peer := by
  rw [fsmConFatal]
  split
  · exact Weak.refl _
  · exact Weak.refl _
  · exact weak_idle

theorem weak_trySend {msg : BgpMsg} : Weak c.peer (c.trySend env msg id).peer := by
  rw [trySend]
  split_ifs
  · exact weak_conFatal
  · exact Weak.refl _

theorem weak_notification {errcode : ErrCode} {subcode : ℕ} :
    Weak c.peer (c.sessionNotification env errcode subcode).peer := by
  rw [sessionNotification]
  split
  · exact weak_trySend
  · exact weak_trySend
  · exact weak_trySend
  · exact Weak.refl _

theorem timersOk_conFatal (h : TimersOk c.peer) : TimersOk (c.fsmConFatal env).peer := by
  rw [fsmConFatal]
  split
  · exact h
  · exact h
  · exact timersOk_idle h.times

theorem timersOk_trySend {msg : BgpMsg} (h : TimersOk c.peer) :
    TimersOk (c.trySend env msg id).peer := by
  rw [trySend]
  split_ifs
  · exact timersOk_conFatal h
  · exact h

theorem timersOk_notification {errcode : ErrCode} {subcode : ℕ} (h : TimersOk c.peer) :
    TimersOk (c.sessionNotification env errcode subcode).peer := by
  rw [sessionNotification]
  split
  · exact timersOk_trySend h
  · exact timersOk_trySend h
  · exact timersOk_trySend h
  · exact h

theorem timersOk_notifyIdle {errcode : ErrCode} {subcode : ℕ} (h : c.peer.conf.Times) :
    TimersOk (c.notifyIdle env errcode subcode event).peer :=
  timersOk_idle (weak_notification.times h)

/-- A session that ends after a notification keeps no timer of the connection. -/
theorem notifyIdle_moves {errcode : ErrCode} {subcode : ℕ} : Moves notConn lost never c.peer.timers
    (c.notifyIdle env errcode subcode event).peer.timers :=
  weak_notification.moves.trans changeState_idle_moves

/-! ## OPEN messages -/

/-- The timers and what they are set from are the same; the settings may be those of a clone that
    learned its AS number. -/
structure SameTimers (p p' : Peer) : Prop where
  timers : p'.timers = p.timers
  state : p'.state = p.state
  holdtime : p'.holdtime = p.holdtime
  times : p.conf.Times → p'.conf.Times

theorem SameTimers.refl (p : Peer) : SameTimers p p := ⟨rfl, rfl, rfl, id⟩

theorem SameTimers.trans {p p' p'' : Peer} (h : SameTimers p p') (h' : SameTimers p' p'') :
    SameTimers p p'' :=
  ⟨h'.timers.trans h.timers, h'.state.trans h.state, h'.holdtime.trans h.holdtime,
    h'.times ∘ h.times⟩

theorem SameTimers.weak {p p' : Peer} (h : SameTimers p p') : Weak p p' :=
  ⟨h.times, by rw [h.timers]; exact Moves.refl⟩

theorem foldl_sameTimers {f : Cur → Aid → Cur} (hf : ∀ c aid, SameTimers c.peer (f c aid).peer)
    (l : List Aid) (c : Cur) : SameTimers c.peer (l.foldl f c).peer := by
  induction l generalizing c with
  | nil => exact SameTimers.refl _
  | cons aid l ih => exact (hf c aid).trans (ih (f c aid))

theorem setNeg_sameTimers (f : Capabilities → Capabilities) :
    SameTimers c.peer (c.setNeg f).peer := ⟨rfl, rfl, rfl, id⟩

theorem setPeerCapa_sameTimers (f : Capabilities → Capabilities) :
    SameTimers c.peer (c.setPeerCapa f).peer := ⟨rfl, rfl, rfl, id⟩

theorem disableGr_sameTimers (aid : Aid) : SameTimers c.peer (c.disableGr aid).peer := by
  rw [disableGr]
  split_ifs
  · exact setPeerCapa_sameTimers _
  · exact SameTimers.refl _

theorem negGrFlush_sameTimers (aid : Aid) : SameTimers c.peer (c.negGrFlush aid).peer := by
  rw [negGrFlush]
  split_ifs
  · exact SameTimers.refl _
  · exact SameTimers.refl _

theorem negGrAid_sameTimers (c : Cur) (aid : Aid) :
    SameTimers c.peer (c.negGrAid aid).peer := by
  have h : SameTimers c.peer ((c.disableGr aid).negGrFlush aid).peer :=
    (disableGr_sameTimers aid).trans (negGrFlush_sameTimers aid)
  rw [negGrAid]
  split_ifs
  · exact h.trans ⟨rfl, rfl, rfl, id⟩
  · exact h

theorem negBasic_sameTimers : SameTimers c.peer c.negBasic.peer := setNeg_sameTimers _

theorem negRest_sameTimers : SameTimers c.peer c.negRest.peer := setNeg_sameTimers _

theorem negPolicy_sameTimers : SameTimers c.peer c.negPolicy.peer := by
  rw [negPolicy]
  split_ifs
  · exact setNeg_sameTimers _
  · exact SameTimers.refl _

/-- The negotiation in front of the checks. -/
theorem neg_sameTimers :
    SameTimers c.peer (Aid.all.foldl negGrAid c.negBasic).negRest.peer := by
  refine SameTimers.trans ?_ negRest_sameTimers
  exact negBasic_sameTimers.trans (foldl_sameTimers negGrAid_sameTimers Aid.all c.negBasic)

theorem negCheck_sameTimers (h : (c.negCheck env).2 = true) :
    SameTimers c.peer (c.negCheck env).1.peer := by
  rw [negCheck] at h ⊢
  split_ifs at h ⊢
  exact negPolicy_sameTimers

theorem negCheck_weak : Weak c.peer (c.negCheck env).1.peer := by
  rw [negCheck]
  split_ifs
  · exact weak_notification
  · exact negPolicy_sameTimers.weak.trans weak_notification
  · exact negPolicy_sameTimers.weak.trans weak_notification
  · exact negPolicy_sameTimers.weak

theorem capaNegCalc_sameTimers (env : Env) (c : Cur) (h : (c.capaNegCalc env).2 = true) :
    SameTimers c.peer (c.capaNegCalc env).1.peer := by
  rw [capaNegCalc] at h ⊢
  exact neg_sameTimers.trans (negCheck_sameTimers h)

theorem capaNegCalc_weak (env : Env) (c : Cur) : Weak c.peer (c.capaNegCalc env).1.peer := by
  rw [capaNegCalc]
  exact neg_sameTimers.weak.trans negCheck_weak

theorem rejectOpen_weak {msg : OpenMsg} {subcode : ℕ} :
    Weak c.peer (c.rejectOpen env msg subcode).peer := weak_notification.trans weak_idle

theorem timersOk_rejectOpen {msg : OpenMsg} {subcode : ℕ} (h : c.peer.conf.Times) :
    TimersOk (c.rejectOpen env msg subcode).peer := timersOk_idle (weak_notification.times h)

theorem parseCapabilities_weak (env : Env) (msg : OpenMsg) (bad : Bool) (as : ℕ) (c : Cur)
    (capas : List Capa) : Weak c.peer (parseCapabilities env msg bad as c capas).1.peer := by
  fun_induction parseCapabilities env msg bad as c capas with
  | case1 => exact Weak.refl _
  | case2 as c val rest h ih => exact ih
  | case3 as c val rest h ih =>
    refine Weak.trans ?_ ih
    exact SameTimers.weak ⟨rfl, rfl, rfl, id⟩
  | case4 => exact rejectOpen_weak
  | case5 as c rest as' h ih => exact (setPeerCapa_sameTimers _).weak.trans ih
  | case6 as c capa rest _ _ _ ih => exact (setPeerCapa_sameTimers _).weak.trans ih

theorem parseCapabilities_sameTimers {msg : OpenMsg} {bad : Bool} {as as' : ℕ}
    {capas : List Capa} (h : (parseCapabilities env msg bad as c capas).2 = some as') :
    SameTimers c.peer (parseCapabilities env msg bad as c capas).1.peer := by
  fun_induction parseCapabilities env msg bad as c capas with
  | case1 => exact SameTimers.refl _
  | case2 as c val rest _ ih => exact ih h
  | case3 as c val rest _ ih =>
    refine SameTimers.trans ?_ (ih h)
    exact ⟨rfl, rfl, rfl, id⟩
  | case4 => cases h
  | case5 as c rest as' _ ih => exact (setPeerCapa_sameTimers _).trans (ih h)
  | case6 as c capa rest _ _ _ ih => exact (setPeerCapa_sameTimers _).trans (ih h)

theorem parseParams_sameTimers {msg : OpenMsg} {as as' : ℕ} {params : List OptParam}
    (h : (parseParams env msg as c params).2 = some as') :
    SameTimers c.peer (parseParams env msg as c params).1.peer := by
  fun_induction parseParams env msg as c params with
  | case1 => cases h
  | case2 => exact SameTimers.refl _
  | case3 => cases h
  | case4 => cases h
  | case5 as c capas bad rest d as' hcapas ih =>
    have hsame := parseCapabilities_sameTimers (c := c) (by rw [hcapas])
    rw [hcapas] at hsame
    exact hsame.trans (ih h)

/-- What a rejected OPEN message leaves. -/
structure Rejected (p p' : Peer) : Prop extends Weak p p' where
  timersOk : p.conf.Times → TimersOk p'

theorem Rejected.of_weak {p p' p'' : Peer} (h : Weak p p') (h' : Rejected p' p'') :
    Rejected p p'' := ⟨h.trans h'.toWeak, h'.timersOk ∘ h.times⟩

theorem rejected_rejectOpen {msg : OpenMsg} {subcode : ℕ} :
    Rejected c.peer (c.rejectOpen env msg subcode).peer := ⟨rejectOpen_weak, timersOk_rejectOpen⟩

theorem rejected_idle : Rejected c.peer (c.changeState env .idle event).peer :=
  ⟨weak_idle, timersOk_idle⟩

theorem parseParams_rejected {msg : OpenMsg} {as : ℕ} {params : List OptParam}
    (h : (parseParams env msg as c params).2 = none) :
    Rejected c.peer (parseParams env msg as c params).1.peer := by
  fun_induction parseParams env msg as c params with
  | case1 => exact rejected_rejectOpen
  | case2 => cases h
  | case3 => exact rejected_rejectOpen
  | case4 as c capas bad rest d hcapas =>
    have hweak := parseCapabilities_weak env msg bad as c capas
    rw [hcapas] at hweak
    exact Rejected.of_weak hweak rejected_rejectOpen
  | case5 as c capas bad rest d as' hcapas ih =>
    have hsame := parseCapabilities_sameTimers (c := c) (by rw [hcapas])
    rw [hcapas] at hsame
    exact Rejected.of_weak hsame.weak (ih h)

theorem learnAs_sameTimers (as : ℕ) (c : Cur) : SameTimers c.peer (c.learnAs as).peer := by
  rw [learnAs]
  split_ifs
  · exact ⟨rfl, rfl, rfl, fun h => ⟨h.holdtime, h.minHoldtime, h.connectretry⟩⟩
  · exact SameTimers.refl _

theorem finishOpen_sameTimers {msg : OpenMsg} {as : ℕ} (h : (c.finishOpen env msg as).2 = true) :
    SameTimers c.peer (c.finishOpen env msg as).1.peer := by
  rw [finishOpen] at h ⊢
  split_ifs at h ⊢
  generalize hneg : (c.learnAs as).capaNegCalc env = r at h ⊢
  obtain ⟨d, _ | _⟩ := r
  · cases h
  · have hsame := capaNegCalc_sameTimers env (c.learnAs as) (by rw [hneg])
    rw [hneg] at hsame
    exact (learnAs_sameTimers as c).trans hsame

theorem finishOpen_rejected {msg : OpenMsg} {as : ℕ} (h : (c.finishOpen env msg as).2 = false) :
    Rejected c.peer (c.finishOpen env msg as).1.peer := by
  refine Rejected.of_weak (learnAs_sameTimers as c).weak ?_
  rw [finishOpen] at h ⊢
  split_ifs at h ⊢
  · exact rejected_rejectOpen
  · exact rejected_rejectOpen
  · generalize hneg : (c.learnAs as).capaNegCalc env = r at h ⊢
    obtain ⟨d, _ | _⟩ := r
    · have hweak := capaNegCalc_weak env (c.learnAs as)
      rw [hneg] at hweak
      exact Rejected.of_weak hweak rejected_idle
    · cases h

/-- The hold time of a message that `parse_open` did not reject yet. -/
theorem holdtime_ok {msg : OpenMsg} (h : c.peer.conf.Times)
    (hmsg : ¬ (msg.holdtime ≠ 0 ∧ msg.holdtime < c.peer.conf.minHoldtime)) :
    min msg.holdtime c.peer.conf.holdtime = 0 ∨ 3 ≤ min msg.holdtime c.peer.conf.holdtime := by
  have := h.holdtime
  have := h.minHoldtime
  omega

/-- The fields that `parse_open` sets before it looks at the parameters. -/
def openFields (msg : OpenMsg) (c : Cur) : Cur :=
  c.modify fun p => { p with
    shortAs := msg.shortAs
    holdtime := min msg.holdtime p.conf.holdtime
    remoteBgpid := msg.bgpid }

theorem openFields_weak {msg : OpenMsg} : Weak c.peer (c.openFields msg).peer :=
  ⟨id, Moves.refl⟩

/-- What is behind the parameters. -/
def openRest (env : Env) (msg : OpenMsg) (c : Cur) : Cur × Bool :=
  match parseParams env msg msg.shortAs c msg.params with
  | (c, none) => (c, false)
  | (c, some as) => c.finishOpen env msg as

/-- `parse_open` rejects the message at one of its first checks or goes on with the parameters. -/
theorem parseOpen_cases (env : Env) (msg : OpenMsg) (c : Cur) :
    ((c.parseOpen env msg).2 = false ∧ Rejected c.peer (c.parseOpen env msg).1.peer) ∨
    (¬ (msg.holdtime ≠ 0 ∧ msg.holdtime < c.peer.conf.minHoldtime) ∧
      c.parseOpen env msg = (c.openFields msg).openRest env msg) := by
  rw [parseOpen]
  by_cases hversion : msg.version ≠ 4
  · rw [if_pos hversion]
    exact Or.inl ⟨rfl, rejected_rejectOpen⟩
  rw [if_neg hversion]
  dsimp only
  split_ifs with has hholdtime hbgpid
  · refine Or.inl ⟨rfl, Rejected.of_weak ?_ rejected_rejectOpen⟩
    exact ⟨id, Moves.refl⟩
  · refine Or.inl ⟨rfl, Rejected.of_weak ?_ rejected_rejectOpen⟩
    exact ⟨id, Moves.refl⟩
  · refine Or.inl ⟨rfl, Rejected.of_weak ?_ rejected_rejectOpen⟩
    exact ⟨id, Moves.refl⟩
  · exact Or.inr ⟨hholdtime, rfl⟩

theorem openRest_sameTimers {msg : OpenMsg} (h : (c.openRest env msg).2 = true) :
    SameTimers c.peer (c.openRest env msg).1.peer := by
  rw [openRest] at h ⊢
  generalize hp : parseParams env msg msg.shortAs c msg.params = r at h ⊢
  obtain ⟨d, _ | as⟩ := r
  · cases h
  · have hsame := parseParams_sameTimers (c := c) (by rw [hp])
    rw [hp] at hsame
    exact hsame.trans (finishOpen_sameTimers h)

theorem openRest_rejected {msg : OpenMsg} (h : (c.openRest env msg).2 = false) :
    Rejected c.peer (c.openRest env msg).1.peer := by
  rw [openRest] at h ⊢
  generalize hp : parseParams env msg msg.shortAs c msg.params = r at h ⊢
  obtain ⟨d, _ | as⟩ := r
  · have hrej := parseParams_rejected (c := c) (by rw [hp])
    rwa [hp] at hrej
  · have hsame := parseParams_sameTimers (c := c) (by rw [hp])
    rw [hp] at hsame
    exact Rejected.of_weak hsame.weak (finishOpen_rejected h)

theorem parseOpen_rejected (env : Env) (msg : OpenMsg) (c : Cur)
    (h : (c.parseOpen env msg).2 = false) :
    Rejected c.peer (c.parseOpen env msg).1.peer := by
  rcases parseOpen_cases env msg c with hcase | ⟨-, heq⟩
  · exact hcase.2
  · rw [heq] at h ⊢
    exact Rejected.of_weak openFields_weak (openRest_rejected h)

theorem parseOpen_accepted (env : Env) (msg : OpenMsg) (c : Cur) (htimes : c.peer.conf.Times)
    (h : (c.parseOpen env msg).2 = true) :
    (c.parseOpen env msg).1.peer.timers = c.peer.timers ∧
      (c.parseOpen env msg).1.peer.state = c.peer.state ∧
      (c.parseOpen env msg).1.peer.conf.Times ∧
      ((c.parseOpen env msg).1.peer.holdtime = 0 ∨ 3 ≤ (c.parseOpen env msg).1.peer.holdtime) := by
  rcases parseOpen_cases env msg c with hcase | ⟨hmsg, heq⟩
  · rw [hcase.1] at h
    cases h
  · rw [heq] at h ⊢
    have hsame := openRest_sameTimers h
    refine ⟨hsame.timers, hsame.state, hsame.times htimes, ?_⟩
    rw [hsame.holdtime]
    exact holdtime_ok htimes hmsg

/-! ## Connections -/

theorem at_keepalive {v : ℕ} (hat : (c.startTimerKeepalive env).peer.timers.At t v)
    (hne : t ≠ .keepalive) : c.peer.timers.At t v := by
  rw [startTimerKeepalive] at hat
  split_ifs at hat
  · simp only [timerSet_peer, at_set] at hat
    exact hat.elim (fun h => absurd h.1 hne) And.right
  · simp only [timerStop_peer, at_stop] at hat
    exact hat.2

/-- The keepalive timer is due a second from now at the earliest. -/
theorem startTimerKeepalive_moves {new : TimerType → Prop}
    (h : c.peer.holdtime = 0 ∨ 3 ≤ c.peer.holdtime) :
    Moves (· ≠ .keepalive) new (after env.now) c.peer.timers
      (c.startTimerKeepalive env).peer.timers := by
  rw [startTimerKeepalive]
  split_ifs with hpos
  · exact Moves.set_later (by omega)
  · exact Moves.stop

theorem startTimerHoldtime_kept : Kept c.peer (c.startTimerHoldtime env).peer := by
  rw [startTimerHoldtime]
  split_ifs
  · exact timerSet_kept _ _ _
  · exact timerStop_kept _

theorem startTimerKeepalive_kept (env : Env) (c : Cur) :
    Kept c.peer (c.startTimerKeepalive env).peer := by
  rw [startTimerKeepalive]
  split_ifs
  · exact timerSet_kept _ _ _
  · exact timerStop_kept _

theorem startTimerSendholdtime_kept : Kept c.peer (c.startTimerSendholdtime env).peer := by
  rw [startTimerSendholdtime]
  split_ifs
  · exact timerSet_kept _ _ _
  · exact timerStop_kept _

/-- The hold time in the states up to `STATE_OPENSENT`. -/
theorem initial_ok {p : Peer} (h : p.holdtime = intervalHoldInitial) :
    p.holdtime = 0 ∨ 3 ≤ p.holdtime := by
  rw [h]
  exact Or.inr (by decide)

/-- There is memory for OPEN messages. -/
def OpenFits (env : Env) : Prop := ∀ msg, env.fails (.open msg) = false

theorem sessionOpen_peer (henv : OpenFits env) : (c.sessionOpen env).peer = c.peer := by
  rw [sessionOpen, trySend, henv]
  rfl

/-- `change_state` to a state in which nothing is to be done. -/
theorem changeState_active_kept (env : Env) (event : Event) (c : Cur) :
    Kept { c.peer with state := .active } (c.changeState env .active event).peer := by
  have h : (c.changeState env .active event).peer =
      { c.peer with prevState := c.peer.state, state := .active } := sessionMd5Reload_peer
  rw [h]
  exact ⟨rfl, rfl, rfl, rfl, rfl, rfl, rfl, rfl⟩

theorem changeState_active_timers (env : Env) (event : Event) (c : Cur) :
    (c.changeState env .active event).peer.timers = c.peer.timers := by
  have h : (c.changeState env .active event).peer =
      { c.peer with prevState := c.peer.state, state := .active } := sessionMd5Reload_peer
  rw [h]

theorem changeState_connect (h : c.peer.state ≠ .established) :
    c.changeState env .connect event =
      c.modify fun p => { p with prevState := p.state, state := .connect } := by
  change enterConnect env _ = _
  rw [enterConnect, if_neg]
  exact fun hand => h hand.1

/-- The peer in front of the last step of `conOpen`. -/
theorem conOpen_peer (henv : OpenFits env) :
    (c.conOpen env).peer.state = .opensent ∧
      (c.conOpen env).peer.holdtime = intervalHoldInitial ∧
      (c.conOpen env).peer.conf = c.peer.conf ∧
      (c.conOpen env).peer.timers =
        (c.peer.timers.stop .connectRetry).set env.now .hold intervalHoldInitial := by
  have hopen := sessionOpen_peer (c := c) henv
  have hstart : ∀ d : Cur, d.peer.holdtime = intervalHoldInitial →
      d.startTimerHoldtime env = d.timerSet env.now .hold intervalHoldInitial := fun d hd => by
    rw [startTimerHoldtime, if_pos (by rw [hd]; decide), hd]
  rw [conOpen, hstart _ rfl]
  refine ⟨rfl, rfl, ?_, ?_⟩
  · change (c.sessionOpen env).peer.conf = c.peer.conf
    rw [hopen]
  · change ((c.sessionOpen env).peer.timers.stop _).set _ _ _ = _
    rw [hopen]

/-- The neighbor is connected, or the attempt goes on or failed; timers are only set to later
    times. -/
structure Connected (now : ℕ) (p p' : Peer) : Prop where
  timersOk : TimersOk p'
  moves : ∀ new, Moves anyTimer new (after now) p.timers p'.timers

theorem connected_conOpen (henv : OpenFits env) (hrun : ¬ c.peer.timers.Running .idleHold)
    (htimes : c.peer.conf.Times) : Connected env.now c.peer (c.conOpen env).peer := by
  obtain ⟨hstate, hholdtime, hconf, htimers⟩ := conOpen_peer (c := c) henv
  refine ⟨timersOk_awake ?_ ?_ ?_ (fun _ => hholdtime) (initial_ok hholdtime) (hconf ▸ htimes),
    fun new => ?_⟩
  · rw [hstate]
    exact fun h => State.noConfusion h
  · rw [hstate]
    exact fun h => State.noConfusion h
  · rw [htimers]
    simpa using hrun
  · rw [htimers]
    exact Moves.stop.any.trans (Moves.set_later (by decide)).any

theorem connected_conOpenfail (env : Env) (c : Cur) (hrun : ¬ c.peer.timers.Running .idleHold)
    (hholdtime : c.peer.holdtime = intervalHoldInitial) (htimes : c.peer.conf.Times) :
    Connected env.now c.peer (c.conOpenfail env).peer := by
  rw [conOpenfail]
  have hk := changeState_active_kept env .conOpenfail
    ((c.timerSet env.now .connectRetry c.peer.conf.connectretry).sessionClose)
  have ht := changeState_active_timers env .conOpenfail
    ((c.timerSet env.now .connectRetry c.peer.conf.connectretry).sessionClose)
  have hhold := hk.holdtime.trans hholdtime
  refine ⟨timersOk_awake ?_ ?_ ?_ (fun _ => hhold) (initial_ok hhold) ?_, fun new => ?_⟩
  · rw [hk.state]
    exact fun h => State.noConfusion h
  · rw [hk.state]
    exact fun h => State.noConfusion h
  · rw [ht]
    simpa using hrun
  · rw [hk.conf]
    exact htimes
  · rw [ht]
    exact (Moves.set_later htimes.connectretry).any

/-- Connecting keeps the timers right, in whatever state it ends. -/
theorem connected_sessionConnect (henv : OpenFits env) (h : TimersOk c.peer)
    (hstate : c.peer.state = .connect) :
    Connected env.now c.peer (c.sessionConnect env).peer := by
  have hidle : c.peer.state ≠ .idle := by
    rw [hstate]
    exact fun h => State.noConfusion h
  have hrun := h.not_idleHold hidle
  have hholdtime := h.initial (by rw [hstate]; rfl)
  -- storing the descriptor does not touch the timers
  have hfd : ∀ fd, TimersOk { c.peer with fd := some fd } := fun fd =>
    timersOk_awake h.state hidle hrun h.initial h.holdtime h.times
  rw [sessionConnect]
  split_ifs
  · exact ⟨h, fun _ => Moves.refl⟩
  · cases env.connect with
    | noSocket => exact connected_conOpenfail env c hrun hholdtime h.times
    | failed fd =>
      have hc := connected_conOpenfail env (c.modify fun p => { p with fd := some fd }) hrun
        hholdtime h.times
      exact ⟨hc.timersOk, hc.moves⟩
    | inProgress fd => exact ⟨hfd fd, fun _ => Moves.refl⟩
    | connected fd =>
      have hc := connected_conOpen (c := c.modify fun p => { p with fd := some fd }) henv hrun
        h.times
      exact ⟨hc.timersOk, hc.moves⟩

/-! ## The states -/

theorem idleStop_kept : Kept c.peer c.idleStop.peer :=
  (((timerStop_kept _).trans (timerStop_kept _)).trans (timerStop_kept _)).trans
    (timerStop_kept _)

theorem at_idleStop {v : ℕ} (h : c.idleStop.peer.timers.At t v) :
    t ≠ .idleHold ∧ c.peer.timers.At t v := by
  simp only [idleStop, timerStop_peer, at_stop] at h
  exact ⟨h.1, h.2.2.2.2⟩

/-- The peer leaves `STATE_IDLE` for `STATE_ACTIVE`. -/
theorem timersOk_leave {p p' : Peer} (h : TimersOk p) (hidle : p.state = .idle)
    (hk : Kept { p with state := .active } p') (hrun : ¬ p'.timers.Running .idleHold) :
    TimersOk p' := by
  have hhold : p'.holdtime = intervalHoldInitial :=
    hk.holdtime.trans (h.initial (by rw [hidle]; rfl))
  refine timersOk_awake ?_ ?_ hrun (fun _ => hhold) (initial_ok hhold) ?_
  · rw [hk.state]
    exact fun h => State.noConfusion h
  · rw [hk.state]
    exact fun h => State.noConfusion h
  · rw [hk.conf]
    exact h.times

theorem not_running_idleStop : ¬ c.idleStop.peer.timers.Running .idleHold := by
  rintro ⟨v, hat⟩
  exact (at_idleStop hat).1 rfl

/-- A peer that does not depend on an interface that is down leaves `STATE_IDLE`. -/
theorem idleStop_timersOk (h : TimersOk c.peer) (hidle : c.peer.state = .idle) :
    TimersOk c.idleStop.peer where
  state := by
    rw [idleStop_kept.state]
    exact h.state
  conn := by
    rintro - t ht ⟨v, hat⟩
    exact h.conn hidle t ht ⟨v, (at_idleStop hat).2⟩
  idleHold := fun _ => idleStop_kept.state.trans hidle
  fd := fun _ => idleStop_kept.fd.trans (h.fd hidle)
  initial := fun _ => idleStop_kept.holdtime.trans (h.initial (by rw [hidle]; rfl))
  holdtime := by
    rw [idleStop_kept.holdtime]
    exact h.holdtime
  times := by
    rw [idleStop_kept.conf]
    exact h.times

/-- Stopping a timer keeps the invariant. -/
theorem timersOk_stop (h : TimersOk c.peer) : TimersOk (c.timerStop t).peer where
  state := h.state
  conn := fun hs t' ht hr => h.conn hs t' ht (TimerHead.running_stop.mp hr).2
  idleHold := fun hr => h.idleHold (TimerHead.running_stop.mp hr).2
  fd := h.fd
  initial := h.initial
  holdtime := h.holdtime
  times := h.times

/-- The peer in `STATE_CONNECT` with the retry timer. -/
theorem timersOk_connect (now offset : ℕ) (h : TimersOk c.peer)
    (hinitial : c.peer.state.initial = true) (hrun : ¬ c.peer.timers.Running .idleHold) :
    TimersOk ((c.modify fun p => { p with prevState := p.state, state := .connect }).timerSet now
      .connectRetry offset).peer := by
  have hhold := h.initial hinitial
  refine timersOk_awake (fun h => State.noConfusion h) (fun h => State.noConfusion h) ?_
    (fun _ => hhold) (initial_ok hhold) h.times
  simpa using hrun

/-- A start out of idle stops idle hold and sets timers at least a second ahead. -/
theorem idleStart_ok (henv : OpenFits env) (h : TimersOk c.peer) (hidle : c.peer.state = .idle) :
    TimersOk (c.idleStart env).peer ∧
      Moves (· ≠ .idleHold) (fun _ => False) (after env.now) c.peer.timers
        (c.idleStart env).peer.timers := by
  have hstop := idleStop_timersOk h hidle
  have hstate : c.idleStop.peer.state = .idle := idleStop_kept.state.trans hidle
  have hrun := not_running_idleStop (c := c)
  have hmoves : Moves (· ≠ .idleHold) (fun _ => False) (after env.now) c.peer.timers
      c.idleStop.peer.timers := fun _ _ hat => Or.inl (at_idleStop hat)
  rw [idleStart]
  generalize c.idleStop = d at hstop hstate hrun hmoves ⊢
  have hactive := changeState_active_kept env .start d
  have htimers := changeState_active_timers env .start d
  dsimp only
  split_ifs
  · exact ⟨timersOk_stop hstop, hmoves.trans_of_kept Moves.stop.any⟩
  · refine ⟨timersOk_leave hstop hstate (hactive.trans (timerStop_kept _)) ?_, ?_⟩
    · rw [timerStop_peer, htimers]
      simpa using hrun
    · rw [timerStop_peer, htimers]
      exact hmoves.trans_of_kept Moves.stop.any
  · refine ⟨timersOk_leave hstop hstate (hactive.trans (timerSet_kept _ _ _)) ?_, ?_⟩
    · rw [timerSet_peer, htimers]
      simpa using hrun
    · rw [timerSet_peer, htimers]
      exact hmoves.trans_of_kept (Moves.set_later (by decide)).any
  · refine ⟨timersOk_leave hstop hstate (hactive.trans (timerSet_kept _ _ _)) ?_, ?_⟩
    · rw [timerSet_peer, htimers]
      simpa using hrun
    · rw [timerSet_peer, htimers]
      exact hmoves.trans_of_kept (Moves.set_later (by decide)).any
  · rw [changeState_connect (by rw [hstate]; exact fun h => State.noConfusion h)]
    have hconn := connected_sessionConnect henv
      (timersOk_connect env.now d.peer.conf.connectretry hstop
        (by rw [hstate]; rfl) hrun) rfl
    refine ⟨hconn.timersOk, hmoves.trans_of_kept ?_⟩
    exact (Moves.set_later hstop.times.connectretry).any.trans (hconn.moves _)

/-- The invariant outside of `STATE_IDLE` if only timers and capabilities changed. -/
theorem TimersOk.of_kept {p p' : Peer} (h : TimersOk p) (hidle : p.state ≠ .idle) (hk : Kept p p')
    (hrun : ¬ p'.timers.Running .idleHold) : TimersOk p' := by
  refine timersOk_awake ?_ ?_ hrun ?_ ?_ ?_
  · rw [hk.state]
    exact h.state
  · rw [hk.state]
    exact hidle
  · rw [hk.state, hk.holdtime]
    exact h.initial
  · rw [hk.holdtime]
    exact h.holdtime
  · rw [hk.conf]
    exact h.times

/-- A timer other than `Timer_IdleHold` is set or stopped. -/
theorem timersOk_set {now offset : ℕ} (h : TimersOk c.peer) (hidle : c.peer.state ≠ .idle)
    (ht : .idleHold ≠ t) : TimersOk (c.timerSet now t offset).peer := by
  refine TimersOk.of_kept h hidle (timerSet_kept _ _ _) ?_
  simpa [ht] using h.not_idleHold hidle

theorem timersOk_holdtime (env : Env) (h : TimersOk c.peer) (hidle : c.peer.state ≠ .idle) :
    TimersOk (c.startTimerHoldtime env).peer := by
  rw [startTimerHoldtime]
  split_ifs
  · exact timersOk_set h hidle (by decide)
  · exact timersOk_stop h

theorem timersOk_sendholdtime (h : TimersOk c.peer) (hidle : c.peer.state ≠ .idle) :
    TimersOk (c.startTimerSendholdtime env).peer := by
  rw [startTimerSendholdtime]
  split_ifs
  · exact timersOk_set h hidle (by decide)
  · exact timersOk_stop h

theorem timersOk_startKeepalive (h : TimersOk c.peer) (hidle : c.peer.state ≠ .idle) :
    TimersOk (c.startTimerKeepalive env).peer := by
  rw [startTimerKeepalive]
  split_ifs
  · exact timersOk_set h hidle (by decide)
  · exact timersOk_stop h

theorem timersOk_keepalive (h : TimersOk c.peer) (hidle : c.peer.state ≠ .idle) :
    TimersOk (c.sessionKeepalive env).peer := by
  rw [sessionKeepalive, trySend]
  split_ifs
  · exact timersOk_conFatal h
  · exact timersOk_startKeepalive (c := c.sessionSendmsg .keepalive) h hidle

/-! ### `STATE_ESTABLISHED` -/

theorem establishedTimers_kept : Kept c.peer (c.establishedTimers env).peer := by
  rw [establishedTimers]
  split_ifs
  · exact (timerSet_kept _ _ _).trans (timerSet_kept _ _ _)
  · exact timerSet_kept _ _ _

theorem enterEstablished_kept : Kept c.peer (c.enterEstablished env).peer :=
  establishedTimers_kept.trans sessionUp_kept

theorem enterEstablished_idleHold :
    (c.enterEstablished env).peer.timers.Running .idleHold → c.peer.timers.Running .idleHold := by
  rw [enterEstablished, sessionUp_timers, TimerHead.running_stop, establishedTimers]
  split_ifs
  · simp
  · simp

theorem enterEstablished_timersOk (h : TimersOk c.peer) (hidle : c.peer.state ≠ .idle) :
    TimersOk (c.enterEstablished env).peer := by
  have hrun : ¬ (c.enterEstablished env).peer.timers.Running .idleHold :=
    fun hr => h.not_idleHold hidle (enterEstablished_idleHold hr)
  exact TimersOk.of_kept h hidle enterEstablished_kept hrun

theorem timersOk_established (hrun : ¬ c.peer.timers.Running .idleHold)
    (hholdtime : c.peer.holdtime = 0 ∨ 3 ≤ c.peer.holdtime) (htimes : c.peer.conf.Times) :
    TimersOk (c.changeState env .established event).peer := by
  refine enterEstablished_timersOk ?_ (fun h => State.noConfusion h)
  exact timersOk_awake (fun h => State.noConfusion h) (fun h => State.noConfusion h) hrun
    (fun h => Bool.noConfusion h) hholdtime htimes

/-! ### `bgp_fsm` -/

theorem rcvdOpen_timersOk {msg : OpenMsg} (henv : env.fails .keepalive = false)
    (h : TimersOk c.peer) (hstate : c.peer.state = .opensent) :
    TimersOk (c.rcvdOpen env msg).peer := by
  rw [rcvdOpen]
  generalize hopen : c.parseOpen env msg = r
  obtain ⟨d, _ | _⟩ := r
  · have hrej := parseOpen_rejected env msg c (by rw [hopen])
    rw [hopen] at hrej
    exact hrej.timersOk h.times
  · obtain ⟨htimers, -, htimes, hholdtime⟩ :=
      parseOpen_accepted env msg c h.times (by rw [hopen])
    rw [hopen] at htimers htimes hholdtime
    have hrun : ¬ d.peer.timers.Running .idleHold := by
      rw [htimers]
      exact h.not_idleHold (by rw [hstate]; exact fun h => State.noConfusion h)
    dsimp only
    rw [sessionKeepalive, trySend, henv, if_neg Bool.false_ne_true]
    have hk := startTimerKeepalive_kept env (d.sessionSendmsg .keepalive)
    refine timersOk_awake (fun h => State.noConfusion h) (fun h => State.noConfusion h) ?_
      (fun h => Bool.noConfusion h) ?_ ?_
    · rintro ⟨v, hat⟩
      exact hrun ⟨v, at_keepalive (c := d.sessionSendmsg .keepalive) hat (by decide)⟩
    · exact hk.holdtime.symm ▸ hholdtime
    · exact hk.conf.symm ▸ htimes

theorem fsmIdle_timersOk (henv : OpenFits env) (h : TimersOk c.peer)
    (hidle : c.peer.state = .idle) :
    TimersOk (c.fsmIdle env event).peer := by
  unfold fsmIdle
  split
  · exact (idleStart_ok henv h hidle).1
  · exact timersOk_stop h
  · exact h

theorem fsmConnect_timersOk (henv : OpenFits env) (h : TimersOk c.peer)
    (hstate : c.peer.state = .connect) : TimersOk (c.fsmConnect env event).peer := by
  have hidle : c.peer.state ≠ .idle := by
    rw [hstate]
    exact fun h => State.noConfusion h
  have hrun := h.not_idleHold hidle
  unfold fsmConnect
  split
  · exact h
  · exact (connected_conOpen henv hrun h.times).timersOk
  · exact (connected_conOpenfail env c hrun (h.initial (by rw [hstate]; rfl)) h.times).timersOk
  · refine (connected_sessionConnect henv (timersOk_set h hidle (by decide)) ?_).timersOk
    exact hstate
  · exact timersOk_idle h.times

/-- A connection attempt in `STATE_ACTIVE`. -/
theorem activeConnect_connected (event : Event) (henv : OpenFits env) (h : TimersOk c.peer)
    (hstate : c.peer.state = .active) : Connected env.now
      ({ c.peer with
        timers := c.peer.timers.set env.now .connectRetry c.peer.holdtime }) 
      (c.activeConnect env event).peer := by
  have hidle : c.peer.state ≠ .idle := by
    rw [hstate]
    exact fun h => State.noConfusion h
  have hrun := h.not_idleHold hidle
  have hhold := h.initial (by rw [hstate]; rfl)
  rw [activeConnect, changeState_connect (by
    change c.peer.state ≠ _
    rw [hstate]
    exact fun h => State.noConfusion h)]
  have hconnect : TimersOk ((c.timerSet env.now .connectRetry c.peer.holdtime).modify fun p =>
      { p with prevState := p.state, state := .connect }).peer :=
    timersOk_awake (fun h => State.noConfusion h) (fun h => State.noConfusion h)
      (by simpa using hrun) (fun _ => hhold) (initial_ok hhold) h.times
  have hconn := connected_sessionConnect henv hconnect rfl
  exact ⟨hconn.timersOk, hconn.moves⟩

theorem fsmActive_timersOk (henv : OpenFits env) (h : TimersOk c.peer)
    (hstate : c.peer.state = .active) : TimersOk (c.fsmActive env event).peer := by
  have hidle : c.peer.state ≠ .idle := by
    rw [hstate]
    exact fun h => State.noConfusion h
  have hrun := h.not_idleHold hidle
  unfold fsmActive
  split
  · split_ifs
    · exact h
    · exact (activeConnect_connected _ henv h hstate).timersOk
  · exact (connected_conOpen henv hrun h.times).timersOk
  · exact (connected_conOpenfail env c hrun (h.initial (by rw [hstate]; rfl)) h.times).timersOk
  · exact (activeConnect_connected _ henv h hstate).timersOk
  · exact timersOk_idle h.times

/-- A connection that is closed in `STATE_OPENSENT`. -/
theorem opensentClosed_timersOk (h : TimersOk c.peer) (hstate : c.peer.state = .opensent) :
    TimersOk (((c.sessionClose).timerSet env.now .connectRetry
      c.peer.conf.connectretry).changeState env .active event).peer := by
  have hhold := h.initial (by rw [hstate]; rfl)
  have hrun := h.not_idleHold (by rw [hstate]; exact fun h => State.noConfusion h)
  have hk := changeState_active_kept env event
    ((c.sessionClose).timerSet env.now .connectRetry c.peer.conf.connectretry)
  have ht := changeState_active_timers env event
    ((c.sessionClose).timerSet env.now .connectRetry c.peer.conf.connectretry)
  have hhold' := hk.holdtime.trans hhold
  refine timersOk_awake ?_ ?_ ?_ (fun _ => hhold') (initial_ok hhold') ?_
  · rw [hk.state]
    exact fun h => State.noConfusion h
  · rw [hk.state]
    exact fun h => State.noConfusion h
  · rw [ht]
    simpa using hrun
  · rw [hk.conf]
    exact h.times

theorem fsmOpensent_timersOk (hkeep : ∀ msg, event = .rcvdOpen msg → env.fails .keepalive = false)
    (h : TimersOk c.peer) (hstate : c.peer.state = .opensent) :
    TimersOk (c.fsmOpensent env event).peer := by
  unfold fsmOpensent
  split
  · exact h
  · exact timersOk_idle h.times
  · exact timersOk_idle h.times
  · exact opensentClosed_timersOk h hstate
  · exact timersOk_notifyIdle h.times
  · exact timersOk_notifyIdle h.times
  · exact rcvdOpen_timersOk (hkeep _ rfl) h hstate
  · exact timersOk_idle h.times
  · exact timersOk_notifyIdle h.times

theorem fsmOpenconfirm_timersOk (h : TimersOk c.peer) (hstate : c.peer.state = .openconfirm) :
    TimersOk (c.fsmOpenconfirm env event).peer := by
  have hidle : c.peer.state ≠ .idle := by
    rw [hstate]
    exact fun h => State.noConfusion h
  unfold fsmOpenconfirm
  split
  · exact h
  · exact timersOk_idle h.times
  · exact timersOk_idle h.times
  · exact timersOk_idle h.times
  · exact timersOk_notifyIdle h.times
  · exact timersOk_notifyIdle h.times
  · exact timersOk_keepalive h hidle
  · have hd := timersOk_holdtime env h hidle
    refine timersOk_established (hd.not_idleHold ?_) hd.holdtime hd.times
    rw [startTimerHoldtime_kept.state]
    exact hidle
  · exact timersOk_idle h.times
  · exact timersOk_notifyIdle h.times

theorem fsmEstablished_timersOk (h : TimersOk c.peer) (hstate : c.peer.state = .established) :
    TimersOk (c.fsmEstablished env event).peer := by
  have hidle : c.peer.state ≠ .idle := by
    rw [hstate]
    exact fun h => State.noConfusion h
  unfold fsmEstablished
  split
  · exact h
  · exact timersOk_idle h.times
  · exact timersOk_idle h.times
  · exact timersOk_idle h.times
  · exact timersOk_notifyIdle h.times
  · exact timersOk_notifyIdle h.times
  · exact timersOk_keepalive h hidle
  · exact timersOk_holdtime env h hidle
  · exact timersOk_holdtime env h hidle
  · exact timersOk_idle h.times
  · exact timersOk_notifyIdle h.times

/-- Every event keeps the invariant, if there is memory for OPEN messages and for the KEEPALIVE
    message that answers one. -/
theorem fsm_timersOk (henv : OpenFits env)
    (hkeep : ∀ msg, event = .rcvdOpen msg → env.fails .keepalive = false) (h : TimersOk c.peer) :
    TimersOk (c.fsm env event).peer := by
  rw [fsm]
  cases hstate : c.peer.state with
  | none => exact absurd hstate h.state
  | idle => exact fsmIdle_timersOk henv h hstate
  | connect => exact fsmConnect_timersOk henv h hstate
  | active => exact fsmActive_timersOk henv h hstate
  | opensent => exact fsmOpensent_timersOk hkeep h hstate
  | openconfirm => exact fsmOpenconfirm_timersOk h hstate
  | established => exact fsmEstablished_timersOk h hstate

end Cur

end Bgpd.Session
