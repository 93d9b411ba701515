import Bgpd.Fib.Rtsock

/-!
# Batches of Kernel Messages

Whether messages of the kernel arrive in one read or in several should not matter. The loop of
`dispatch_rtmsg` keeps the variable `mpath` from one message to the next: once a message has
`RTF_MPATH`, those behind it in the same read are treated as if they had it. This does no harm to a
message that is handled in the same way with and without the flag.

## Main results

- `fibMsg_alike`: a message for which the flag does not matter
- `dispatchReads_alone`: the reads are the messages one by one
- `batching_irrelevant`: two ways of splitting a stream lead to the same state
- `mpath_kept`: a message that is handled in two ways
-/

namespace Bgpd.Fib

open Lib
open Rde (Aid BgpdAddr)

/-! ## Messages for which the flag does not matter -/

/-- The search with the gateway finds the first route of the prefix as well. -/
def alike (t : KrouteTree) (f : Family) (kf : KrouteFull) (type : RtmType) : Bool :=
  match krouteFind t kf.dst.addr (f.scope kf.dst.scopeId) kf.prefixlen (some kf.priority) with
  | none => true
  | some n =>
    match type with
    | .add => false
    | .change => krouteMatchgw n kf = some n.kr
    | .delete => n.kr.flags.bgpd ≠ kf.flags.bgpd ∨ krouteMatchgw n kf = some n.kr

/-- It does not matter whether `mpath` is still set when the message is handled: it has the flag
    itself, it is not about a route of ours, or the first route is the one it is about. -/
def Indifferent (env : Env) (s : Krs) : KMsg → Bool
  | .route rtm => rtm.mpath || match (routeMsg env s rtm).1 with
    | .route kf =>
      match familyOf kf.dst.aid, s.ktableGet rtm.tableid with
      | some f, some kt => alike (kt.tree f) f kf rtm.type
      | _, _ => true
    | _ => true
  | _ => true

/-- In a read that begins with `mpath`, messages are handled with `mpath` still set only if it does
    not matter to them. -/
def ReadOk (env : Env) : Krs → Bool → List KMsg → Prop
  | _, _, [] => True
  | s, mpath, m :: buf =>
    (mpath = true → Indifferent env s m = true) ∧
      ReadOk env (dispatchOne env s mpath m).s (dispatchOne env s mpath m).mpath buf

/-- This holds in every read. -/
def ReadsOk (env : Env) : Krs → List (List KMsg) → Prop
  | _, [] => True
  | s, buf :: bufs => ReadOk env s false buf ∧ ReadsOk env (dispatchRtmsg env s buf).1 bufs

instance ReadOk.decidable (env : Env) :
    ∀ (s : Krs) (mpath : Bool) (buf : List KMsg), Decidable (ReadOk env s mpath buf)
  | _, _, [] => .isTrue trivial
  | s, mpath, m :: buf =>
    have : Decidable
        (ReadOk env (dispatchOne env s mpath m).s (dispatchOne env s mpath m).mpath buf) :=
      ReadOk.decidable env _ _ buf
    inferInstanceAs (Decidable (_ ∧ _))

instance ReadsOk.decidable (env : Env) :
    ∀ (s : Krs) (bufs : List (List KMsg)), Decidable (ReadsOk env s bufs)
  | _, [] => .isTrue trivial
  | s, buf :: bufs =>
    have : Decidable (ReadsOk env (dispatchRtmsg env s buf).1 bufs) := ReadsOk.decidable env _ bufs
    inferInstanceAs (Decidable (_ ∧ _))

variable {env : Env} {s : Krs} {f : Family} {kf : KrouteFull} {t : KrouteTree}

/-- A removal with and without the gateway. -/
theorem removeFrom_alike (h : alike t f kf .delete = true) :
    removeFrom t f kf false = removeFrom t f kf true := by
  unfold alike at h
  unfold removeFrom
  cases hfind : krouteFind t kf.dst.addr (f.scope kf.dst.scopeId) kf.prefixlen
      (some kf.priority) with
  | none => rfl
  | some n =>
    rw [hfind] at h
    dsimp only at h ⊢
    by_cases htype : n.kr.flags.bgpd ≠ kf.flags.bgpd
    · rw [if_pos htype, if_pos htype]
    · have hgw : krouteMatchgw n kf = some n.kr := by
        rcases of_decide_eq_true h with htype' | hgw
        · exact absurd htype' htype
        · exact hgw
      simp only [hgw, ite_self]

/-- A change with and without the gateway. -/
theorem fibTarget_alike {type : RtmType} (htype : type ≠ .delete) (h : alike t f kf type = true) :
    fibTarget t f kf type true = fibTarget t f kf type false := by
  unfold alike at h
  unfold fibTarget
  cases hfind : krouteFind t kf.dst.addr (f.scope kf.dst.scopeId) kf.prefixlen
      (some kf.priority) with
  | none => rfl
  | some n =>
    rw [hfind] at h
    cases type with
    | add => cases h
    | change =>
      have hgw : krouteMatchgw n kf = some n.kr := of_decide_eq_true h
      simp [hgw]
    | delete => exact absurd rfl htype

theorem krFibDelete_alike {rtableid nh : ℕ} {kt : Ktable} (hf : familyOf kf.dst.aid = some f)
    (hkt : s.ktableGet rtableid = some kt) (h : alike (kt.tree f) f kf .delete = true) :
    s.krFibDelete env rtableid nh kf true = s.krFibDelete env rtableid nh kf false := by
  unfold Krs.krFibDelete Krs.krouteRemove
  rw [hf, hkt]
  simp only [Bool.not_true, Bool.not_false, removeFrom_alike h]

theorem krFibChange_alike {rtableid nh : ℕ} {kt : Ktable} {type : RtmType}
    (htype : type ≠ .delete) (hkt : s.ktableGet rtableid = some kt)
    (h : ∀ f, plainFamily kf.dst.aid = some f → alike (kt.tree f) f kf type = true) :
    s.krFibChange env rtableid nh kf type true = s.krFibChange env rtableid nh kf type false := by
  unfold Krs.krFibChange
  cases hf : plainFamily kf.dst.aid with
  | none => rfl
  | some f =>
    rw [hkt]
    dsimp only
    rw [fibTarget_alike htype (h f hf)]

theorem familyOf_of_plain {aid : Option Aid} (h : plainFamily aid = some f) :
    familyOf aid = some f := by
  rcases aid with - | aid
  · cases h
  · cases aid <;> first | exact h | cases h

/-- A message of which both handlings are the same. -/
theorem fibMsg_alike {rtm : RtMsg} {nh : ℕ}
    (h : match familyOf kf.dst.aid, s.ktableGet rtm.tableid with
      | some f, some kt => alike (kt.tree f) f kf rtm.type = true
      | _, _ => True) :
    fibMsg env s rtm nh kf true = fibMsg env s rtm nh kf false := by
  unfold fibMsg
  cases hkt : s.ktableGet rtm.tableid with
  | none =>
    have hdelete : ∀ mpath, s.krFibDelete env rtm.tableid nh kf mpath
        = s.krFibDelete env rtm.tableid nh kf false := by
      intro mpath
      unfold Krs.krFibDelete Krs.krouteRemove
      rw [hkt]
      cases familyOf kf.dst.aid <;> rfl
    have hchange : ∀ mpath, s.krFibChange env rtm.tableid nh kf rtm.type mpath = s := by
      intro mpath
      unfold Krs.krFibChange
      rw [hkt]
      cases plainFamily kf.dst.aid <;> rfl
    rw [hdelete true, hchange true, hchange false]
  | some kt =>
    rw [hkt] at h
    split_ifs with htype
    · cases hf : familyOf kf.dst.aid with
      | none =>
        unfold Krs.krFibDelete Krs.krouteRemove
        rw [hf]
      | some f =>
        rw [hf, htype] at h
        exact krFibDelete_alike hf hkt h
    · rw [krFibChange_alike htype hkt fun f hf => ?_]
      rw [familyOf_of_plain hf] at h
      exact h

/-! ## One message -/

/-- A message is handled as if it came alone. -/
theorem dispatchOne_alone {mpath : Bool} {m : KMsg}
    (h : mpath = true → Indifferent env s m = true) :
    (dispatchOne env s mpath m).s = (dispatchOne env s false m).s ∧
      (dispatchOne env s mpath m).result = (dispatchOne env s false m).result := by
  cases mpath with
  | false => exact ⟨rfl, rfl⟩
  | true =>
    cases m with
    | route rtm =>
      have hind : Indifferent env s (.route rtm) = true := h rfl
      unfold dispatchOne
      unfold Indifferent at hind
      dsimp only at hind ⊢
      -- the message has passed `dispatch_rtmsg`: what is left is the route it carries
      rcases hmsg : routeMsg env s rtm with ⟨parsed, nh⟩
      rw [hmsg] at hind
      cases parsed with
      | skip => exact ⟨rfl, rfl⟩
      | fatal => exact ⟨rfl, rfl⟩
      | route kf =>
        dsimp only [Bool.true_or, Bool.false_or] at hind ⊢
        cases hflag : rtm.mpath with
        | true => exact ⟨rfl, rfl⟩
        | false =>
          rw [hflag, Bool.false_or] at hind
          -- the calls differ in the flag only, and `Indifferent` says that it does not matter
          have hsame : fibMsg env s rtm nh kf true = fibMsg env s rtm nh kf false := by
            apply fibMsg_alike
            cases hf : familyOf kf.dst.aid with
            | none => trivial
            | some f =>
              cases hkt : s.ktableGet rtm.tableid with
              | none => trivial
              | some kt =>
                rw [hf, hkt] at hind
                exact hind
          rw [Bool.true_or, Bool.false_or, hsame]
          exact ⟨rfl, rfl⟩
    | ifinfo index up linkState ifType rdomain => exact ⟨rfl, rfl⟩
    | arrival index name => exact ⟨rfl, rfl⟩
    | departure index => exact ⟨rfl, rfl⟩
    | other => exact ⟨rfl, rfl⟩

/-! ## Streams -/

/-- The messages are handled one by one, each with its own flag. -/
def dispatchAlone (env : Env) : Krs → List KMsg → Krs × Int
  | s, [] => (s, 0)
  | s, m :: ms =>
    if (dispatchOne env s false m).result = -1 then ((dispatchOne env s false m).s, -1)
    else dispatchAlone env (dispatchOne env s false m).s ms

theorem dispatchLoop_alone {mpath : Bool} {buf : List KMsg} (h : ReadOk env s mpath buf) :
    dispatchLoop env s mpath buf = dispatchAlone env s buf := by
  induction buf generalizing s mpath with
  | nil => rfl
  | cons m buf ih =>
    obtain ⟨hm, hbuf⟩ := h
    obtain ⟨hs, hresult⟩ := dispatchOne_alone hm
    rw [dispatchLoop, dispatchAlone, ih hbuf, hresult, hs]

/-- The messages of two reads, one after the other. -/
theorem dispatchAlone_append (ms ms' : List KMsg) :
    dispatchAlone env s (ms ++ ms') =
      if (dispatchAlone env s ms).2 = -1 then dispatchAlone env s ms
      else dispatchAlone env (dispatchAlone env s ms).1 ms' := by
  induction ms generalizing s with
  | nil => rfl
  | cons m ms ih =>
    rw [List.cons_append, dispatchAlone, dispatchAlone]
    split_ifs with hstop
    · rfl
    · exact absurd rfl ‹¬ (-1 : Int) = -1›
    · rw [ih, if_pos ‹_›]
    · rw [ih, if_neg ‹_›]

/-- The state when the main loop ends or waits for the next read. -/
def afterReads (r : Krs × Int) : Krs := if r.2 = -1 then { r.1 with quit := true } else r.1

/-- The reads are the messages one by one. -/
theorem dispatchReads_alone {bufs : List (List KMsg)} (hne : ∀ buf ∈ bufs, buf ≠ [])
    (h : ReadsOk env s bufs) :
    dispatchReads env s bufs = afterReads (dispatchAlone env s bufs.flatten) := by
  induction bufs generalizing s with
  | nil => rfl
  | cons buf bufs ih =>
    obtain ⟨hbuf, hbufs⟩ := h
    have hread : dispatchRtmsg env s buf = dispatchAlone env s buf := by
      cases buf with
      | nil => exact absurd rfl (hne [] List.mem_cons_self)
      | cons m buf => exact dispatchLoop_alone hbuf
    have hrest := ih (fun b hb => hne b (List.mem_cons_of_mem _ hb)) hbufs
    rw [hread] at hrest
    rw [dispatchReads, List.flatten_cons, dispatchAlone_append, hread]
    split_ifs with hstop
    · rw [afterReads, if_pos hstop]
    · exact hrest

/-- Two ways of splitting a stream of messages into reads lead to the same routes, nexthops and
    messages. -/
theorem batching_irrelevant (env : Env) (s : Krs) (bufs bufs' : List (List KMsg))
    (hflatten : bufs.flatten = bufs'.flatten) (hne : ∀ buf ∈ bufs, buf ≠ [])
    (hne' : ∀ buf ∈ bufs', buf ≠ []) (h : ReadsOk env s bufs) (h' : ReadsOk env s bufs') :
    dispatchReads env s bufs = dispatchReads env s bufs' := by
  rw [dispatchReads_alone hne h, dispatchReads_alone hne' h', hflatten]

/-! ## A flag that is kept -/

/-- A single empty table. -/
def emptyTable : Krs := { krt := [some { rtableid := 0, nhtableid := 0 }] }

/-- The kernel reports a new route to `dst/8` by the gateway `gw`. -/
def added (dst gw : ℕ) (mpath : Bool) : KMsg :=
  .route { type := .add, mpath := mpath, dst := some (.inet dst), netmask := some 8,
           gateway := some (.inet gw) }

/-- Behind a multipath route stand another one and a route of a prefix that is not kept yet. -/
theorem batching_irrelevant_sample :
    dispatchReads {} emptyTable [[added 0x0a000000 1 false, added 0x0b000000 1 true,
        added 0x0b000000 2 true, added 0x0c000000 1 false]] =
      dispatchReads {} emptyTable [[added 0x0a000000 1 false], [added 0x0b000000 1 true,
        added 0x0b000000 2 true], [added 0x0c000000 1 false]] :=
  batching_irrelevant {} emptyTable _ _ rfl (by decide) (by decide) (by decide +kernel)
    (by decide +kernel)

/-- Behind a multipath route, the new gateway of another route is taken for a second route. -/
theorem mpath_kept :
    ¬ ∀ (env : Env) (s : Krs) (bufs bufs' : List (List KMsg)), bufs.flatten = bufs'.flatten →
      (∀ buf ∈ bufs, buf ≠ []) → (∀ buf ∈ bufs', buf ≠ []) →
        dispatchReads env s bufs = dispatchReads env s bufs' := by
  intro h
  have heq := h {} emptyTable
    [[added 0x0a000000 1 false, added 0x0b000000 1 true, added 0x0a000000 2 false]]
    [[added 0x0a000000 1 false, added 0x0b000000 1 true], [added 0x0a000000 2 false]]
    rfl (by decide) (by decide)
  have hroutes := congrArg (fun s => (s.treeOf 0 .inet).map fun n => n.next.length) heq
  revert hroutes
  decide +kernel

end Bgpd.Fib
