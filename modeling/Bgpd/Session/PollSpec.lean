import Bgpd.Session.Engine
import Bgpd.Session.TimerRuns

/-!
# Poll Results and Connections

The poll array is filled with the connections that the peers have before `poll`, and consumed after
imsgs were handled and connections were accepted. `session_dispatch_msg` looks at the poll result
and at the peer, not at whether both are about the same connection.

Descriptors stand for connections here: a new connection has a new number.

## Main definitions

- `IterEvent`, `iterStep`: what happens in one iteration behind `poll`
- `harmless`: the old poll result does no harm to the new connection

## Main results

- `dispatch_fd`: what an old poll result does
- `poll_results_spared`: the new connections are spared iff all old poll results are harmless
-/

namespace Bgpd.Session

open Cur (OpenFits)

variable {env : Env} {c : Cur} {r : Revents} {fd : ℕ}

/-! ## One iteration -/

/-- The events of an iteration between `poll` and the end of `session_dispatch_msg`: imsgs and
    accepted connections. -/
def EngineEvent.behindPoll : EngineEvent → Bool
  | .main => false
  | .peer _ event => match event with
    | .update _ | .updateErr _ _ | .refresh _ _ | .restarted _ => true
    | _ => false
  | _ => true

/-- A step in an iteration: an imsg or an accepted connection, or `session_dispatch_msg` for the
    peer with the id. -/
inductive IterEvent where
  | event (env : Env) (event : EngineEvent)
  | dispatch (env : Env) (id : ℕ) (r : Revents)

/-- The connection of the peer in the poll array. -/
def Engine.pollfd (e : Engine) (id : ℕ) : Option ℕ :=
  (e.peers.find? (·.conf.id = id)).bind Peer.fd

/-- A step of the iteration; `poll` is the poll array. -/
def iterStep (poll : ℕ → Option ℕ) (e : Engine) : IterEvent → Engine
  | .event env event => if event.behindPoll then e.step env event else e
  | .dispatch env id r =>
    if (poll id).isSome then
      e.atPeers (·.conf.id = id) (Cur.sessionDispatchMsg (e.env env) r)
    else e

/-- The new connection itself is in order, and there is memory for an OPEN message. -/
def Fine (env : Env) (r : Revents) : Prop :=
  OpenFits env ∧ r.read = .done ∧ r.writeFails = false

/-- `P` holds for every `session_dispatch_msg` of the iteration in which the peer has another
    connection than the one in the poll array. -/
def EachStale (P : Env → Peer → Revents → ℕ → Prop) (poll : ℕ → Option ℕ) :
    Engine → List IterEvent → Prop
  | _, [] => True
  | e, s :: l =>
    (∀ env id r, s = .dispatch env id r → ∀ p ∈ e.peers, p.conf.id = id →
      ∀ old fd, poll id = some old → p.fd = some fd → fd ≠ old → Fine env r →
        P (e.env env) p r fd) ∧
    EachStale P poll (iterStep poll e s) l

/-- The connection is still that of the peer. -/
def Spared (env : Env) (p : Peer) (r : Revents) (fd : ℕ) : Prop :=
  (Cur.sessionDispatchMsg env r { peer := p }).peer.fd = some fd

/-- The poll result does not close or fail whatever connection the peer has. -/
def harmless (p : Peer) (r : Revents) : Bool :=
  match p.state with
  | .none | .idle => true
  | .connect => if r.pollout then !(r.pollin && r.soError) else !r.pollhup && !r.pollerr
  | _ => !r.pollhup && !r.pollerr

/-! ## One poll result -/

namespace Cur

theorem fd_conOpen (henv : OpenFits env) : (c.conOpen env).peer.fd = c.peer.fd := by
  have hopen := sessionOpen_peer (c := c) henv
  rw [conOpen]
  change (startTimerHoldtime env _).peer.fd = _
  rw [startTimerHoldtime_kept.fd]
  change (c.sessionOpen env).peer.fd = _
  rw [hopen]

theorem fd_conOpenfail : (c.conOpenfail env).peer.fd = none := by
  rw [conOpenfail, (changeState_active_kept env .conOpenfail _).fd]
  rfl

theorem fd_idle {event : Event} : (c.changeState env .idle event).peer.fd = none :=
  (changeState_idle_kept env event c).fd

/-- A poll result without a hangup or an error leaves a connection that is in order alone. -/
theorem fd_dispatch_quiet (hfd : c.peer.fd = some fd) (hfine : Fine env r) :
    (if r.pollout && r.queued then
      if r.writeFails || c.peer.fd.isNone then c.fsm env .conFatal
      else (c.startTimerSendholdtime env).dispatchRead env r
    else c.dispatchRead env r).peer.fd = some fd := by
  have hread : ∀ d : Cur, d.dispatchRead env r = d := by
    intro d
    rw [dispatchRead, hfine.2.1]
    exact ite_self d
  rw [hread, hread, hfine.2.2, hfd]
  split_ifs with _ hfail
  · cases hfail
  · rw [startTimerSendholdtime_kept.fd, hfd]
  · exact hfd

/-- A hangup ends the connection in the states that have one. -/
theorem fd_closed (hnone : c.peer.state ≠ .none) (hidle : c.peer.state ≠ .idle) :
    (c.fsm env .conClosed).peer.fd = none := by
  rw [fsm]
  cases hstate : c.peer.state with
  | none => exact absurd hstate hnone
  | idle => exact absurd hstate hidle
  | connect => exact fd_idle
  | active => exact fd_idle
  | opensent =>
    change (changeState env .active .conClosed _).peer.fd = none
    rw [(changeState_active_kept env .conClosed _).fd]
    rfl
  | openconfirm => exact fd_idle
  | established => exact fd_idle

/-- An error ends the connection in the states that have one. -/
theorem fd_fatal (hnone : c.peer.state ≠ .none) (hidle : c.peer.state ≠ .idle) :
    (c.fsm env .conFatal).peer.fd = none := by
  rw [fsm]
  cases hstate : c.peer.state with
  | none => exact absurd hstate hnone
  | idle => exact absurd hstate hidle
  | connect => exact fd_idle
  | active => exact fd_idle
  | opensent => exact fd_idle
  | openconfirm => exact fd_idle
  | established => exact fd_idle

/-- `bgp_fsm` ignores the end of a connection in a state without one. -/
theorem fsm_quiet {event : Event} (hstate : c.peer.state = .none ∨ c.peer.state = .idle)
    (hevent : event = .conClosed ∨ event = .conFatal) : c.fsm env event = c := by
  rw [fsm]
  rcases hstate with hstate | hstate
  · rw [hstate]
  · rw [hstate]
    rcases hevent with rfl | rfl
    · rfl
    · rfl

/-- `session_dispatch_msg` outside of `STATE_CONNECT`. -/
theorem fd_dispatch_rest (hconnect : c.peer.state ≠ .connect) (hfd : c.peer.fd = some fd)
    (hfine : Fine env r) : (c.sessionDispatchMsg env r).peer.fd = some fd ↔
      (c.peer.state = .none ∨ c.peer.state = .idle) ∨ (!r.pollhup && !r.pollerr) = true := by
  rw [sessionDispatchMsg, if_neg hconnect]
  by_cases hquiet : c.peer.state = .none ∨ c.peer.state = .idle
  · rw [fsm_quiet hquiet (Or.inl rfl), fsm_quiet hquiet (Or.inr rfl)]
    have hrest := fd_dispatch_quiet hfd hfine
    rw [fsm_quiet hquiet (Or.inr rfl)] at hrest
    split_ifs at hrest ⊢ <;> simp_all
  · rw [or_iff_right hquiet]
    rw [not_or] at hquiet
    cases hhup : r.pollhup with
    | true => simp [fd_closed hquiet.1 hquiet.2]
    | false =>
      cases herr : r.pollerr with
      | true => simp [fd_fatal hquiet.1 hquiet.2]
      | false =>
        rw [if_neg Bool.false_ne_true, if_neg Bool.false_ne_true, fd_dispatch_quiet hfd hfine]
        simp

/-- `session_dispatch_msg` in `STATE_CONNECT`. -/
theorem fd_dispatch_connect (hconnect : c.peer.state = .connect) (hfd : c.peer.fd = some fd)
    (hfine : Fine env r) : (c.sessionDispatchMsg env r).peer.fd = some fd ↔
      (if r.pollout then !(r.pollin && r.soError) else !r.pollhup && !r.pollerr) = true := by
  have hopenfail : (c.fsm env .conOpenfail).peer.fd = none := by
    rw [fsm, hconnect]
    exact fd_conOpenfail
  have hopen : (c.fsm env .conOpen).peer.fd = some fd := by
    rw [fsm, hconnect]
    exact (fd_conOpen hfine.1).trans hfd
  have hfatal : (c.fsm env .conFatal).peer.fd = none := by
    rw [fsm, hconnect]
    exact fd_idle
  rw [sessionDispatchMsg, if_pos hconnect]
  cases r.pollout with
  | true =>
    cases hbad : r.pollin && r.soError with
    | true => simp [hopenfail]
    | false => simp [hopen]
  | false =>
    cases r.pollhup with
    | true => simp [hopenfail]
    | false =>
      cases r.pollerr with
      | true => simp [hfatal]
      | false => simp [hfd]

end Cur

/-- What an old poll result does: the new connection is spared iff the result is harmless. -/
theorem dispatch_fd {p : Peer} (hfd : p.fd = some fd) (hfine : Fine env r) :
    Spared env p r fd ↔ harmless p r = true := by
  by_cases hconnect : p.state = .connect
  · rw [Spared, Cur.fd_dispatch_connect hconnect hfd hfine, harmless, hconnect]
  · rw [Spared, Cur.fd_dispatch_rest hconnect hfd hfine, harmless]
    cases hstate : p.state <;> simp_all

/-! ## All of an iteration -/

/-- Two properties of stale poll results that agree for each of them agree for the iteration. -/
theorem eachStale_congr {P Q : Env → Peer → Revents → ℕ → Prop} {poll : ℕ → Option ℕ}
    (h : ∀ env p r fd, p.fd = some fd → Fine env r → (P env p r fd ↔ Q env p r fd))
    (l : List IterEvent) (e : Engine) : EachStale P poll e l ↔ EachStale Q poll e l := by
  induction l generalizing e with
  | nil => exact Iff.rfl
  | cons s l ih =>
    refine and_congr ?_ (ih _)
    constructor
    · intro hp env id r hs p hmem hid old fd hold hfd hne hfine
      exact (h (e.env env) p r fd hfd hfine).mp
        (hp env id r hs p hmem hid old fd hold hfd hne hfine)
    · intro hq env id r hs p hmem hid old fd hold hfd hne hfine
      exact (h (e.env env) p r fd hfd hfine).mpr
        (hq env id r hs p hmem hid old fd hold hfd hne hfine)

/-- In an iteration the connections that replaced others are spared by the poll results of the old
    ones exactly if all these poll results are harmless. -/
theorem poll_results_spared (e : Engine) (l : List IterEvent) :
    EachStale Spared e.pollfd e l ↔
      EachStale (fun _ p r _ => harmless p r = true) e.pollfd e l :=
  eachStale_congr (fun _ _ _ _ hfd hfine => dispatch_fd hfd hfine) l e

/-- The surroundings at a second in which nothing fails. -/
def calmEnv (second : ℕ) (connect : ConnectResult) : Env :=
  sampleEnv second connect fun _ => false

/-- The engine with a neighbor that is being connected to. -/
def sampleConnecting : Engine :=
  Engine.run [(calmEnv 1 .noSocket, .reconfConf (calmEnv 1 .noSocket).conf),
    (calmEnv 1 .noSocket, .reconfPeer
      { sampleConf with remoteAddr := { aid := some .inet, addr := 1 } }),
    (calmEnv 1 .noSocket, .reconfDone),
    (calmEnv 1 .noSocket, .main),
    (calmEnv 6 (.inProgress 7), .peer 2 .timers)]

/-- The neighbor connects at the same time. -/
def sampleAccept : IterEvent :=
  .event (calmEnv 6 .noSocket) (.accept { aid := some .inet, addr := 1 } 8 false false)

/-- The outgoing connection 7 is closed for the accepted one, and its hangup then closes that. -/
theorem new_connection_closed : ¬ ∀ (e : Engine) (l : List IterEvent),
    EachStale Spared e.pollfd e l := by
  intro h
  have hspared := (h sampleConnecting
    [sampleAccept, .dispatch (calmEnv 6 .noSocket) 2 { pollhup := true }]).2.1
  have hpeer : ∃ p ∈ (iterStep sampleConnecting.pollfd sampleConnecting sampleAccept).peers,
      p.conf.id = 2 ∧ p.fd = some 8 ∧ harmless p { pollhup := true } = false := by
    decide +kernel
  obtain ⟨p, hmem, hid, hfd, hharm⟩ := hpeer
  have hfine : Fine (calmEnv 6 .noSocket) { pollhup := true } := ⟨fun _ => rfl, rfl, rfl⟩
  have hp := hspared (calmEnv 6 .noSocket) 2 _ rfl p hmem hid 7 8 (by decide +kernel) hfd
    (by decide) hfine
  -- the configuration is that of the engine, which is not part of what fails
  have hharmless := (dispatch_fd hfd (by exact hfine)).mp hp
  rw [hharm] at hharmless
  cases hharmless

end Bgpd.Session
