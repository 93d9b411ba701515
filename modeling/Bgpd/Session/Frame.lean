import Bgpd.Session.Handlers

/-!
# What the Small Steps Leave Alone

Simp lemmas about the operations on `Cur`, and the fields of a peer that the parts of
`change_state` do not touch.

## Main results

- `Kept`: the fields that most functions leave alone
- `foldl_kept`: a loop over the families
- `sessionGracefulRestart_timers`, `enterIdle_kept`
-/

namespace Bgpd.Session

open Rde (Aid)

namespace Cur

variable {env : Env} {c : Cur}

/-! ## Operations -/

@[simp] theorem modify_peer (f : Peer → Peer) : (c.modify f).peer = f c.peer := rfl

@[simp] theorem send_peer (o : Out) : (c.send o).peer = c.peer := rfl

@[simp] theorem imsgRde_peer (msg : RdeMsg) : (c.imsgRde msg).peer = c.peer := rfl

@[simp] theorem sessionSendmsg_peer (msg : BgpMsg) : (c.sessionSendmsg msg).peer = c.peer := rfl

@[simp] theorem timerSet_peer (now : ℕ) (t : TimerType) (offset : ℕ) :
    (c.timerSet now t offset).peer = { c.peer with timers := c.peer.timers.set now t offset } := rfl

@[simp] theorem timerStop_peer (t : TimerType) :
    (c.timerStop t).peer = { c.peer with timers := c.peer.timers.stop t } := rfl

@[simp] theorem sessionClose_peer : c.sessionClose.peer = { c.peer with fd := none } := rfl

@[simp] theorem sessionMd5Reload_peer : c.sessionMd5Reload.peer = c.peer := by
  rw [sessionMd5Reload]
  split_ifs <;> rfl

@[simp] theorem sessionDemote_peer (level : ℤ) : (c.sessionDemote level).peer =
    { c.peer with demoted := ((c.peer.demoted + level) % 256).toNat } := rfl

end Cur

/-! ## The rest of the peer -/

/-- Nothing changed but timers, capabilities, `IdleHoldTime`, `demoted`, and what the RDE knows. -/
structure Kept (p p' : Peer) : Prop where
  conf : p'.conf = p.conf
  addr : p'.addr = p.addr
  template : p'.template = p.template
  state : p'.state = p.state
  reconfAction : p'.reconfAction = p.reconfAction
  dependOk : p'.dependOk = p.dependOk
  fd : p'.fd = p.fd
  holdtime : p'.holdtime = p.holdtime

theorem Kept.refl (p : Peer) : Kept p p := ⟨rfl, rfl, rfl, rfl, rfl, rfl, rfl, rfl⟩

theorem Kept.trans {p p' p'' : Peer} (h : Kept p p') (h' : Kept p' p'') : Kept p p'' where
  conf := h'.conf.trans h.conf
  addr := h'.addr.trans h.addr
  template := h'.template.trans h.template
  state := h'.state.trans h.state
  reconfAction := h'.reconfAction.trans h.reconfAction
  dependOk := h'.dependOk.trans h.dependOk
  fd := h'.fd.trans h.fd
  holdtime := h'.holdtime.trans h.holdtime

namespace Cur

variable {env : Env} {c : Cur} {event : Event}

/-- A loop over the families. -/
theorem foldl_kept {f : Cur → Aid → Cur}
    (hf : ∀ c aid, Kept c.peer (f c aid).peer ∧ (f c aid).peer.timers = c.peer.timers)
    (l : List Aid) (c : Cur) :
    Kept c.peer (l.foldl f c).peer ∧ (l.foldl f c).peer.timers = c.peer.timers := by
  induction l generalizing c with
  | nil => exact ⟨Kept.refl _, rfl⟩
  | cons aid l ih =>
    exact ⟨(hf c aid).1.trans (ih (f c aid)).1, (ih (f c aid)).2.trans (hf c aid).2⟩

theorem imsgRde_kept (msg : RdeMsg) : Kept c.peer (c.imsgRde msg).peer := Kept.refl _

theorem setGr_kept (aid : Aid) (f : GrFlags → GrFlags) : Kept c.peer (c.setGr aid f).peer :=
  ⟨rfl, rfl, rfl, rfl, rfl, rfl, rfl, rfl⟩

theorem gracefulRestartAid_kept (c : Cur) (aid : Aid) :
    Kept c.peer (c.gracefulRestartAid aid).peer ∧
    (c.gracefulRestartAid aid).peer.timers = c.peer.timers := by
  rw [gracefulRestartAid]
  split_ifs
  · exact ⟨(imsgRde_kept (.stale aid)).trans (setGr_kept _ _), rfl⟩
  · exact ⟨(imsgRde_kept (.nograce aid)).trans (setGr_kept _ _), rfl⟩
  · exact ⟨Kept.refl _, rfl⟩

theorem gracefulStopAid_kept (c : Cur) (aid : Aid) : Kept c.peer (c.gracefulStopAid aid).peer ∧
    (c.gracefulStopAid aid).peer.timers = c.peer.timers := by
  rw [gracefulStopAid]
  split_ifs
  · exact ⟨(imsgRde_kept (.flush aid)).trans (setGr_kept _ _), rfl⟩
  · exact ⟨setGr_kept _ _, rfl⟩

theorem timerSet_kept (now : ℕ) (t : TimerType) (offset : ℕ) :
    Kept c.peer (c.timerSet now t offset).peer := ⟨rfl, rfl, rfl, rfl, rfl, rfl, rfl, rfl⟩

theorem timerStop_kept (t : TimerType) : Kept c.peer (c.timerStop t).peer :=
  ⟨rfl, rfl, rfl, rfl, rfl, rfl, rfl, rfl⟩

/-- The timers that `session_graceful_restart` sets. -/
def restartTimers (env : Env) (c : Cur) : Cur :=
  (c.timerSet env.now .restartTimeout (staletime env c.peer)).timerSet env.now .sessionDown
    (max (staletime env c.peer) (intervalSessionDown - intervalStale) + intervalStale)

theorem sessionGracefulRestart_eq :
    c.sessionGracefulRestart env = Aid.all.foldl gracefulRestartAid (c.restartTimers env) := rfl

theorem restartTimers_kept : Kept c.peer (c.restartTimers env).peer :=
  (timerSet_kept _ _ _).trans (timerSet_kept _ _ _)

theorem sessionGracefulRestart_kept : Kept c.peer (c.sessionGracefulRestart env).peer := by
  rw [sessionGracefulRestart_eq]
  exact restartTimers_kept.trans (foldl_kept gracefulRestartAid_kept _ _).1

theorem sessionGracefulRestart_timers : (c.sessionGracefulRestart env).peer.timers =
    (c.peer.timers.set env.now .restartTimeout (staletime env c.peer)).set env.now .sessionDown
      (max (staletime env c.peer) (intervalSessionDown - intervalStale) + intervalStale) := by
  rw [sessionGracefulRestart_eq, (foldl_kept gracefulRestartAid_kept Aid.all _).2]
  rfl

theorem sessionGracefulStop_kept : Kept c.peer c.sessionGracefulStop.peer :=
  (foldl_kept gracefulStopAid_kept _ _).1

theorem sessionGracefulStop_timers : c.sessionGracefulStop.peer.timers = c.peer.timers :=
  (foldl_kept gracefulStopAid_kept Aid.all _).2

/-! ## The session comes up or is lost -/

theorem rdeAdd_kept : Kept c.peer c.rdeAdd.peer ∧ c.rdeAdd.peer.timers = c.peer.timers := by
  rw [rdeAdd]
  split_ifs
  · exact ⟨Kept.refl _, rfl⟩
  · exact ⟨⟨rfl, rfl, rfl, rfl, rfl, rfl, rfl, rfl⟩, rfl⟩

theorem sessionUp_kept : Kept c.peer c.sessionUp.peer :=
  (timerStop_kept _).trans rdeAdd_kept.1

theorem sessionUp_timers : c.sessionUp.peer.timers = c.peer.timers.stop .sessionDown :=
  rdeAdd_kept.2

theorem sessionDown_kept : Kept c.peer (c.sessionDown env).peer :=
  ⟨rfl, rfl, rfl, rfl, rfl, rfl, rfl, rfl⟩

theorem doubleIdleHold_kept : Kept c.peer c.doubleIdleHold.peer :=
  ⟨rfl, rfl, rfl, rfl, rfl, rfl, rfl, rfl⟩

theorem sessionLost_kept : Kept c.peer (c.sessionLost env event).peer := by
  rw [sessionLost]
  split_ifs
  · exact sessionDown_kept
  · exact (timerSet_kept _ _ _).trans sessionGracefulRestart_kept
  · exact ((timerSet_kept _ _ _).trans sessionDown_kept).trans doubleIdleHold_kept

theorem idleDemote_kept : Kept c.peer c.idleDemote.peer ∧
    c.idleDemote.peer.timers = c.peer.timers := by
  rw [idleDemote]
  split_ifs
  · exact ⟨⟨rfl, rfl, rfl, rfl, rfl, rfl, rfl, rfl⟩, rfl⟩
  · exact ⟨Kept.refl _, rfl⟩

theorem idleAnnounce_kept : Kept c.peer c.idleAnnounce.peer ∧
    c.idleAnnounce.peer.timers = c.peer.timers := by
  rw [idleAnnounce]
  split_ifs
  · exact ⟨⟨rfl, rfl, rfl, rfl, rfl, rfl, rfl, rfl⟩, rfl⟩
  · exact ⟨Kept.refl _, rfl⟩

/-- The peer after `resetConnection`. -/
def resetPeer (p : Peer) : Peer := { p with holdtime := intervalHoldInitial, fd := none }

theorem stopTimers_kept : Kept c.peer c.stopTimers.peer :=
  ((((((timerStop_kept _).trans (timerStop_kept _)).trans (timerStop_kept _)).trans
    (timerStop_kept _)).trans (timerStop_kept _)).trans (timerStop_kept _))

theorem resetConnection_kept : Kept (resetPeer c.peer) c.resetConnection.peer := by
  have h := stopTimers_kept (c := c.modify fun p => { p with holdtime := intervalHoldInitial })
  exact ⟨h.conf, h.addr, h.template, h.state, h.reconfAction, h.dependOk, rfl, h.holdtime⟩

theorem resetConnection_timers : c.resetConnection.peer.timers =
    (c.modify fun p => { p with holdtime := intervalHoldInitial }).stopTimers.peer.timers := rfl

theorem Kept.resetPeer {p p' : Peer} (h : Kept p p') :
    Kept (Cur.resetPeer p) (Cur.resetPeer p') :=
  ⟨h.conf, h.addr, h.template, h.state, h.reconfAction, h.dependOk, rfl, rfl⟩

/-- The part of `STATE_IDLE` in front of the timers. -/
theorem enterIdle_front_kept :
    Kept (resetPeer c.peer)
      c.idleDemote.resetConnection.sessionMd5Reload.idleAnnounce.peer := by
  refine (Kept.resetPeer idleDemote_kept.1).trans (resetConnection_kept.trans ?_)
  rw [← sessionMd5Reload_peer (c := c.idleDemote.resetConnection)]
  exact idleAnnounce_kept.1

theorem enterIdle_kept (env : Env) (event : Event) (c : Cur) :
    Kept (resetPeer c.peer) (c.enterIdle env event).peer := by
  refine enterIdle_front_kept.trans ?_
  rw [enterIdle]
  split
  · exact Kept.refl _
  · exact sessionLost_kept
  · split_ifs
    · exact (timerSet_kept _ _ _).trans doubleIdleHold_kept
    · exact doubleIdleHold_kept

end Cur

end Bgpd.Session
