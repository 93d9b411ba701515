import Mathlib.Tactic

/-!
# Flow Control between the Session Engine and the RDE

The session engine queues the messages for a peer. When the queue is long it asks the RDE to send no
more updates for this peer, and when the queue is short again it lets it go on. The RDE itself holds
the updates back while `peer_dump` fills the Adj-RIB-Out, with the same flag, and every dump that
ends clears the flag.

So a peer is never held back for good. But the end of a dump also takes back what the session engine
has asked for.

## Main definitions

- `Flow`: the two processes and the messages between them
- `Reach`: all runs, and if no dump has ended since the session engine asked for a pause

## Main results

- `Reach.inv`: the invariant of runs
- `flow_control`: nobody waits for good, and the pause is kept while no dump ends
- `xoff_lost`: a pause that a dump takes back
-/

namespace Bgpd.Session.Throttle

/-! ## The two processes -/

/-- `SESS_MSG_HIGH_MARK` -/
def sessMsgHighMark : ℕ := 2000

/-- `SESS_MSG_LOW_MARK` -/
def sessMsgLowMark : ℕ := 500

/-- `IMSG_XOFF`, `IMSG_XON`, `IMSG_SESSION_ADD` and `IMSG_SESSION_DELETE` of one peer. -/
inductive Msg
  | xoff | xon | add | delete
  deriving DecidableEq

/-- `struct rde_peer`: the flag, and the walks of `peer_dump` and `peer_blast` that are running. -/
structure RdePeer where
  throttled : Bool
  dumps : ℕ

/-- The session engine has `queued` messages for the peer and its own flag, and the RDE has its
    peer, if there is one. Both have sent what the other has not yet read. -/
structure Flow where
  queued : ℕ
  throttled : Bool
  toRde : List Msg
  peer : Option RdePeer
  updates : ℕ

/-- The first check of the loop in `session_main`. -/
def checkHigh (f : Flow) : Flow :=
  if f.throttled = false ∧ sessMsgHighMark < f.queued then
    { f with throttled := true, toRde := f.toRde ++ [.xoff] }
  else f

/-- The second check. -/
def checkLow (f : Flow) : Flow :=
  if f.throttled = true ∧ f.queued < sessMsgLowMark then
    { f with throttled := false, toRde := f.toRde ++ [.xon] }
  else f

/-- The RDE reads a message; `peer_get` may find no peer. -/
def dispatch (m : Msg) (peer : Option RdePeer) : Option RdePeer :=
  match m with
  | .xoff => peer.map fun p => { p with throttled := true }
  | .xon => peer.map fun p => { p with throttled := false }
  | .add => some (peer.getD ⟨false, 0⟩)
  | .delete => none

/-- `peer_dump`; where it has no walk, `peer_dump_done` follows at once. -/
def peerDump (p : RdePeer) : RdePeer := ⟨true, p.dumps + 1⟩

/-- `peer_blast` -/
def peerBlast (p : RdePeer) : RdePeer := { p with dumps := p.dumps + 1 }

/-- `peer_dump_done` and `peer_blast_done` -/
def peerBlastDone (p : RdePeer) : RdePeer := ⟨false, p.dumps - 1⟩

/-! ## Runs -/

/-- All runs. `kept` tells that no dump has ended and no peer was added since the session engine
    wants a pause. -/
inductive Reach : Flow → Bool → Prop
  | init : Reach ⟨0, false, [], none, 0⟩ true
  /-- The session engine adds or deletes the peer. -/
  | tell {f : Flow} {kept : Bool} (m : Msg) (hrun : Reach f kept) (hm : m = .add ∨ m = .delete) :
      Reach { f with toRde := f.toRde ++ [m] } kept
  | checkHigh {f : Flow} {kept : Bool} (hrun : Reach f kept) :
      Reach (checkHigh f) (if f.throttled then kept else true)
  | checkLow {f : Flow} {kept : Bool} (hrun : Reach f kept) : Reach (checkLow f) kept
  /-- Updates are read and queued, or there is no session for them. -/
  | update {f : Flow} {kept : Bool} (n k : ℕ) (hrun : Reach f kept) (hn : n ≤ f.updates)
      (hk : k ≤ n) : Reach { f with queued := f.queued + k, updates := f.updates - n } kept
  /-- Messages of the session engine itself. -/
  | queue {f : Flow} {kept : Bool} (n : ℕ) (hrun : Reach f kept) :
      Reach { f with queued := f.queued + n } kept
  /-- Messages are written, or dropped with the session. -/
  | write {f : Flow} {kept : Bool} (n : ℕ) (hrun : Reach f kept) :
      Reach { f with queued := f.queued - n } kept
  | dispatch {f : Flow} {kept : Bool} {m : Msg} {rest : List Msg} (hrun : Reach f kept)
      (hmsg : f.toRde = m :: rest) :
      Reach { f with toRde := rest, peer := dispatch m f.peer }
        (kept && !(f.throttled && m = .add && f.peer.isNone))
  | dump {f : Flow} {kept : Bool} {p : RdePeer} (hrun : Reach f kept) (hpeer : f.peer = some p) :
      Reach { f with peer := some (peerDump p) } kept
  | blast {f : Flow} {kept : Bool} {p : RdePeer} (hrun : Reach f kept) (hpeer : f.peer = some p) :
      Reach { f with peer := some (peerBlast p) } kept
  | dumpDone {f : Flow} {kept : Bool} {p : RdePeer} (hrun : Reach f kept)
      (hpeer : f.peer = some p) (hdump : 0 < p.dumps) :
      Reach { f with peer := some (peerBlastDone p) } (kept && !f.throttled)
  /-- `rde_update_queue_runner` sends updates for a peer that is not held back. -/
  | send {f : Flow} {kept : Bool} {p : RdePeer} (n : ℕ) (hrun : Reach f kept)
      (hpeer : f.peer = some p) (hgo : p.throttled = false) :
      Reach { f with updates := f.updates + n } kept

/-! ## The invariant -/

/-- The message is about the flow. -/
def isSignal (m : Msg) : Bool := m = .xoff ∨ m = .xon

/-- The last of these messages that the RDE has not read. -/
def lastSignal (toRde : List Msg) : Option Msg := (toRde.filter isSignal).getLast?

variable {f : Flow} {kept : Bool} {m : Msg} {rest : List Msg}

theorem lastSignal_concat (hm : isSignal m = true) : lastSignal (rest ++ [m]) = some m := by
  rw [lastSignal, List.filter_append, List.filter_cons_of_pos hm, List.filter_nil,
    List.getLast?_concat]

theorem lastSignal_concat_other (hm : isSignal m = false) :
    lastSignal (rest ++ [m]) = lastSignal rest := by
  rw [lastSignal, List.filter_append, List.filter_cons_of_neg
    (by rw [hm]; exact Bool.false_ne_true),
    List.filter_nil, List.append_nil, lastSignal]

theorem lastSignal_cons_other (hm : isSignal m = false) :
    lastSignal (m :: rest) = lastSignal rest := by
  rw [lastSignal, List.filter_cons_of_neg (by rw [hm]; exact Bool.false_ne_true), lastSignal]

theorem lastSignal_cons (hm : isSignal m = true) :
    lastSignal (m :: rest) = some ((lastSignal rest).getD m) := by
  rw [lastSignal, List.filter_cons_of_pos hm, List.getLast?_cons, lastSignal]

/-- What the RDE has been told last is what the session engine wants; if nothing is on its way, the
    RDE holds the updates back for the session engine or for a dump. -/
structure Inv (f : Flow) (kept : Bool) : Prop where
  pending : ∀ m, lastSignal f.toRde = some m → (m = .xoff ↔ f.throttled = true)
  free : lastSignal f.toRde = none → ∀ p, f.peer = some p → p.throttled = true →
    f.throttled = true ∨ 0 < p.dumps
  held : lastSignal f.toRde = none → f.throttled = true → kept = true →
    ∀ p, f.peer = some p → p.throttled = true

/-- Only the flags, the messages and the peer matter. -/
theorem Inv.same {g : Flow} (hi : Inv f kept) (hthr : g.throttled = f.throttled)
    (hmsg : g.toRde = f.toRde) (hpeer : g.peer = f.peer) : Inv g kept := by
  refine ⟨?_, ?_, ?_⟩
  · rw [hthr, hmsg]
    exact hi.pending
  · rw [hthr, hmsg, hpeer]
    exact hi.free
  · rw [hthr, hmsg, hpeer]
    exact hi.held

/-- The session engine has just told what it wants. -/
theorem inv_told {g : Flow} (hlast : lastSignal g.toRde = some m)
    (hm : m = .xoff ↔ g.throttled = true) : Inv g kept := by
  refine ⟨fun m' hm' => ?_, fun hnone => ?_, fun hnone => ?_⟩
  · rw [hlast, Option.some.injEq] at hm'
    rw [← hm']
    exact hm
  · rw [hlast] at hnone
    cases hnone
  · rw [hlast] at hnone
    cases hnone

theorem Inv.checkHigh (hi : Inv f kept) :
    Inv (checkHigh f) (if f.throttled then kept else true) := by
  rw [Throttle.checkHigh]
  split_ifs with hhigh hthr hthr
  · rw [hhigh.1] at hthr
    cases hthr
  · exact inv_told (lastSignal_concat rfl) (iff_of_true rfl rfl)
  · exact hi
  · exact ⟨hi.pending, hi.free, fun _ h => absurd h hthr⟩

theorem Inv.checkLow (hi : Inv f kept) : Inv (checkLow f) kept := by
  rw [Throttle.checkLow]
  split_ifs with hlow
  · exact inv_told (lastSignal_concat rfl) (iff_of_false (by decide) Bool.false_ne_true)
  · exact hi

/-- The RDE reads a message. -/
theorem Inv.dispatch (hi : Inv f kept) (hmsg : f.toRde = m :: rest) :
    Inv { f with toRde := rest, peer := dispatch m f.peer }
      (kept && !(f.throttled && m = .add && f.peer.isNone)) := by
  have hpending := hi.pending
  have hfree := hi.free
  have hheld := hi.held
  rw [hmsg] at hpending hfree hheld
  -- a signal, when it is the last one, is what the session engine wants
  have hsignal : ∀ b : Bool, isSignal m = true → (m = .xoff ↔ b = true) →
      (∀ p, Throttle.dispatch m f.peer = some p → p.throttled = b) →
      Inv { f with toRde := rest, peer := Throttle.dispatch m f.peer }
        (kept && !(f.throttled && m = .add && f.peer.isNone)) := by
    intro b hm hb hp
    have hlast : lastSignal (m :: rest) = some ((lastSignal rest).getD m) := lastSignal_cons hm
    refine ⟨fun m' hm' => ?_, fun hnone p hpeer hthr => ?_, fun hnone hthr _ p hpeer => ?_⟩
    · refine hpending m' ?_
      dsimp only at hm'
      rw [hlast, hm', Option.getD_some]
    · dsimp only at hnone
      rw [hnone, Option.getD_none] at hlast
      refine .inl ((hpending m hlast).1 (hb.2 ?_))
      rw [← hp p hpeer]
      exact hthr
    · dsimp only at hnone
      rw [hnone, Option.getD_none] at hlast
      rw [hp p hpeer]
      exact hb.1 ((hpending m hlast).2 hthr)
  cases m with
  -- XOFF sets the flag, XON clears it
  | xoff =>
    refine hsignal true rfl (iff_of_true rfl rfl) fun p hp => ?_
    obtain ⟨q, _, rfl⟩ := Option.map_eq_some_iff.1 hp
    rfl
  | xon =>
    refine hsignal false rfl (iff_of_false (by decide) (by decide)) fun p hp => ?_
    obtain ⟨q, _, rfl⟩ := Option.map_eq_some_iff.1 hp
    rfl
  -- a neighbour that is added again starts without the flag
  | add =>
    rw [lastSignal_cons_other rfl] at hpending hfree hheld
    refine ⟨hpending, fun hnone p hp hthr => ?_, fun hnone hthr hkept p hp => ?_⟩
    · rw [Throttle.dispatch, Option.some.injEq] at hp
      cases hpeer : f.peer with
      | none =>
        rw [hpeer, Option.getD_none] at hp
        rw [← hp] at hthr
        cases hthr
      | some q =>
        rw [hpeer, Option.getD_some] at hp
        exact hfree hnone p (hp ▸ hpeer) hthr
    · rw [Throttle.dispatch, Option.some.injEq] at hp
      dsimp only at hthr
      cases hpeer : f.peer with
      | none =>
        rw [hpeer, hthr] at hkept
        simp at hkept
      | some q =>
        rw [hpeer, Option.getD_some] at hp
        rw [Bool.and_eq_true] at hkept
        exact hheld hnone hthr hkept.1 p (hp ▸ hpeer)
  -- the peer is gone
  | delete =>
    rw [lastSignal_cons_other rfl] at hpending
    refine ⟨hpending, fun _ p hp => ?_, fun _ _ _ p hp => ?_⟩
    · cases hp
    · cases hp

/-- The run lemma. -/
theorem Reach.inv (hr : Reach f kept) : Inv f kept := by
  induction hr with
  | init =>
    refine ⟨fun m hm => ?_, fun _ p hp => ?_, fun _ _ _ p hp => ?_⟩
    · cases hm
    · cases hp
    · cases hp
  | tell m hrun hm ih =>
    have hother : isSignal m = false := by
      rcases hm with rfl | rfl <;> rfl
    refine ⟨?_, ?_, ?_⟩
    · dsimp only
      rw [lastSignal_concat_other hother]
      exact ih.pending
    · dsimp only
      rw [lastSignal_concat_other hother]
      exact ih.free
    · dsimp only
      rw [lastSignal_concat_other hother]
      exact ih.held
  | checkHigh hrun ih => exact ih.checkHigh
  | checkLow hrun ih => exact ih.checkLow
  | update n k hrun hn hk ih => exact ih.same rfl rfl rfl
  | queue n hrun ih => exact ih.same rfl rfl rfl
  | write n hrun ih => exact ih.same rfl rfl rfl
  | dispatch hrun hmsg ih => exact ih.dispatch hmsg
  | dump hrun hpeer ih =>
    refine ⟨ih.pending, fun _ p hp _ => ?_, fun _ _ _ p hp => ?_⟩
    · rw [← Option.some.inj hp]
      exact .inr (Nat.succ_pos _)
    · rw [← Option.some.inj hp]
      rfl
  | blast hrun hpeer ih =>
    refine ⟨ih.pending, fun _ p hp _ => ?_, fun hnone hthr hkept p hp => ?_⟩
    · rw [← Option.some.inj hp]
      exact .inr (Nat.succ_pos _)
    · have hsame := ih.held hnone hthr hkept _ hpeer
      rw [← Option.some.inj hp]
      exact hsame
  | @dumpDone f kept p hrun hpeer hdump ih =>
    refine ⟨ih.pending, fun _ p hp hthr => ?_, fun _ hthr hkept p hp => ?_⟩
    · rw [← Option.some.inj hp] at hthr
      cases hthr
    · dsimp only at hthr
      rw [hthr, Bool.not_true, Bool.and_false] at hkept
      cases hkept
  | send n hrun hpeer hgo ih => exact ih.same rfl rfl rfl

/-! ## What the two processes can rely on -/

/-- The RDE reads all messages. -/
def deliver (f : Flow) : Flow :=
  { f with toRde := [], peer := f.toRde.foldl (fun peer m => dispatch m peer) f.peer }

theorem Reach.deliver (toRde : List Msg) :
    ∀ f kept, Reach f kept → f.toRde = toRde → ∃ kept', Reach (deliver f) kept' := by
  induction toRde with
  | nil =>
    intro f kept hr hmsg
    refine ⟨kept, ?_⟩
    have hsame : Throttle.deliver f = f := by
      rw [Throttle.deliver, hmsg, List.foldl_nil, ← hmsg]
    rw [hsame]
    exact hr
  | cons m rest ih =>
    intro f kept hr hmsg
    obtain ⟨kept', hr'⟩ := ih _ _ (hr.dispatch hmsg) rfl
    refine ⟨kept', ?_⟩
    have hsame : Throttle.deliver { f with toRde := rest, peer := Throttle.dispatch m f.peer } =
        Throttle.deliver f := by
      rw [Throttle.deliver, Throttle.deliver, hmsg, List.foldl_cons]
    rw [← hsame]
    exact hr'

/-- The checks leave the flag in accordance with the queue. -/
theorem checks_marks (f : Flow) : (checkLow (checkHigh f)).queued = f.queued ∧
    ((checkLow (checkHigh f)).throttled = true → sessMsgLowMark ≤ f.queued) ∧
    ((checkLow (checkHigh f)).throttled = false → f.queued ≤ sessMsgHighMark) := by
  have hlow : sessMsgLowMark = 500 := rfl
  have hhigh : sessMsgHighMark = 2000 := rfl
  rw [checkHigh]
  split_ifs with hbig
  · rw [checkLow, if_neg (by dsimp only; omega)]
    exact ⟨rfl, fun _ => by omega, fun h => absurd h.symm Bool.false_ne_true⟩
  · rw [checkLow]
    by_cases hsmall : f.throttled = true ∧ f.queued < sessMsgLowMark
    · rw [if_pos hsmall]
      exact ⟨rfl, fun h => absurd h Bool.false_ne_true, fun _ => by omega⟩
    · rw [if_neg hsmall]
      refine ⟨rfl, fun hthr => ?_, fun hthr => ?_⟩
      · by_contra hlt
        exact hsmall ⟨hthr, by omega⟩
      · by_contra hgt
        exact hbig ⟨hthr, by omega⟩

/-- What holds of the two processes. -/
structure FlowOk (f : Flow) (kept : Bool) : Prop where
  /-- After its checks the session engine wants a pause only while it has messages to write, and
      does without only while they are few. -/
  marks : ((checkLow (checkHigh f)).throttled = true → sessMsgLowMark ≤ f.queued) ∧
    ((checkLow (checkHigh f)).throttled = false → f.queued ≤ sessMsgHighMark)
  /-- When the queue is short, the check made and all messages read, the RDE holds the updates back
      for a dump only. -/
  resumes : f.queued < sessMsgLowMark → ∀ p, (deliver (checkLow f)).peer = some p →
    p.throttled = true → 0 < p.dumps
  /-- The RDE keeps the pause, unless a dump has ended in it. -/
  pauses : f.toRde = [] → f.throttled = true → kept = true → ∀ p, f.peer = some p →
    p.throttled = true

/-- In every run of the two processes no peer is held back for good: when its queue has been
    written, the session engine checked it and the RDE read its messages, updates are held back only
    while a dump runs. And as long as no dump ends, the RDE holds them back while it was told to. -/
theorem flow_control (f : Flow) (kept : Bool) (hr : Reach f kept) : FlowOk f kept := by
  obtain ⟨_, hmarks⟩ := checks_marks f
  refine ⟨hmarks, fun hshort p hp hthr => ?_, fun hmsg hthr hkept => ?_⟩
  · obtain ⟨kept', hr'⟩ := Reach.deliver _ _ _ hr.checkLow rfl
    rcases hr'.inv.free rfl p hp hthr with hflag | hdump
    · have hoff : (checkLow f).throttled = false := by
        rw [checkLow]
        split_ifs with hlow
        · rfl
        · exact Bool.eq_false_iff.2 fun h => hlow ⟨h, hshort⟩
      have hsame : (deliver (checkLow f)).throttled = (checkLow f).throttled := rfl
      rw [hsame, hoff] at hflag
      cases hflag
    · exact hdump
  · refine hr.inv.held ?_ hthr hkept
    rw [hmsg]
    rfl

/-- A peer is added, its queue grows, and the RDE is told to pause. -/
theorem flow_control_paused : Reach ⟨2001, true, [], some ⟨true, 0⟩, 0⟩ true ∧
    FlowOk ⟨2001, true, [], some ⟨true, 0⟩, 0⟩ true := by
  have hadd := Reach.init.tell .add (.inl rfl)
  have hpeer := hadd.dispatch rfl
  have hqueue := hpeer.queue 2001
  have hxoff := hqueue.checkHigh
  have hr := hxoff.dispatch rfl
  exact ⟨hr, flow_control _ _ hr⟩

/-- The pause is taken back by the end of a dump, and there is no dump any more. -/
theorem xoff_lost : Reach ⟨2001, true, [], some ⟨false, 0⟩, 0⟩ false := by
  have hadd := Reach.init.tell .add (.inl rfl)
  have hpeer := hadd.dispatch rfl
  have hdump := hpeer.dump rfl
  have hqueue := hdump.queue 2001
  have hxoff := hqueue.checkHigh
  have htold := hxoff.dispatch rfl
  exact htold.dumpDone rfl Nat.one_pos

end Bgpd.Session.Throttle
