import Bgpd.Lib.AssocList
import Bgpd.Rde.ReloadEnd

/-!
# Reloads End Once

The counter is the number of dumps that are accounted for and still there, and these are all of
one phase. So the outbound phase starts when the last inbound dump has ended, and the reload is
reported when the last counted outbound dump has ended. Dumps of peers that need their
Adj-RIB-Out again are not counted.

## Main results

- `ribDumpFree_inv`: the end of a dump, however it comes about
- `reloadStep_inv`: what every step keeps
- `reload_ends`: every reload ends exactly once
-/

namespace Bgpd.Rde.ReloadEnd

open Bgpd.Lib

/-! ## Counted dumps -/

/-- The dumps that `softreconfig` accounts for. -/
def ReloadState.countedDumps (s : ReloadState) : List DumpCtx :=
  s.ribDumps.filter fun c => c.use.counted

/-- Contexts are objects. -/
structure DumpsWf (s : ReloadState) : Prop where
  nodup : (s.ribDumps.map DumpCtx.addr).Nodup
  fresh : ∀ c ∈ s.ribDumps, c.addr < s.nextAddr

/-- `s'` is `s` with at most `n` new counted dumps, which have just been started. -/
structure Grows (P : DumpUse → Prop) (n : ℕ) (s s' : ReloadState) : Prop where
  dumps : ∃ new, s'.countedDumps = new ++ s.countedDumps ∧ new.length ≤ n ∧
    (∀ c ∈ new, c.pos = 0 ∧ P c.use) ∧ s'.softreconfig = s.softreconfig + new.length
  reloads : s'.reloads = s.reloads
  outStarts : s'.outStarts = s.outStarts
  reconfDone : s'.reconfDone = s.reconfDone
  rounds : s'.rounds = s.rounds
  ribSize : s'.ribSize = s.ribSize
  nconf : s'.nconf = s.nconf
  wf : DumpsWf s → DumpsWf s'

section Grows

variable {P : DumpUse → Prop} {n m : ℕ} {s s₁ s' : ReloadState}

theorem Grows.refl (P : DumpUse → Prop) (s : ReloadState) : Grows P 0 s s :=
  ⟨⟨[], rfl, le_refl 0, fun _ hc => absurd hc List.not_mem_nil, (add_zero _).symm⟩,
    rfl, rfl, rfl, rfl, rfl, rfl, id⟩

theorem Grows.trans (h : Grows P n s s₁) (h' : Grows P m s₁ s') : Grows P (n + m) s s' := by
  obtain ⟨new, hdumps, hlen, hall, hcnt⟩ := h.dumps
  obtain ⟨new', hdumps', hlen', hall', hcnt'⟩ := h'.dumps
  refine ⟨⟨new' ++ new, ?_, ?_, ?_, ?_⟩, h'.reloads.trans h.reloads, h'.outStarts.trans h.outStarts,
    h'.reconfDone.trans h.reconfDone, h'.rounds.trans h.rounds, h'.ribSize.trans h.ribSize,
    h'.nconf.trans h.nconf, fun hw => h'.wf (h.wf hw)⟩
  · rw [hdumps', hdumps, List.append_assoc]
  · rw [List.length_append]
    omega
  · intro c hc
    rcases List.mem_append.mp hc with hc | hc
    · exact hall' c hc
    · exact hall c hc
  · rw [hcnt', hcnt, List.length_append]
    push_cast
    omega

theorem Grows.mono (h : Grows P n s s') (hle : n ≤ m) : Grows P m s s' := by
  obtain ⟨new, hdumps, hlen, hall, hcnt⟩ := h.dumps
  exact ⟨⟨new, hdumps, hlen.trans hle, hall, hcnt⟩, h.reloads, h.outStarts, h.reconfDone, h.rounds,
    h.ribSize, h.nconf, h.wf⟩

/-- A property of uses that all counted dumps have is kept. -/
theorem Grows.all (h : Grows P n s s') (hs : ∀ c ∈ s.countedDumps, P c.use) :
    ∀ c ∈ s'.countedDumps, P c.use := by
  obtain ⟨new, hdumps, -, hall, -⟩ := h.dumps
  intro c hc
  rw [hdumps] at hc
  rcases List.mem_append.mp hc with hc | hc
  · exact (hall c hc).2
  · exact hs c hc

theorem Grows.foldl {α : Type*} {f : ReloadState → α → ReloadState}
    (hf : ∀ s a, Grows P n s (f s a))
    (l : List α) (s : ReloadState) : Grows P (l.length * n) s (l.foldl f s) := by
  induction l generalizing s with
  | nil => exact (Grows.refl P s).mono (Nat.zero_le _)
  | cons a l ih =>
    refine ((hf s a).trans (ih (f s a))).mono ?_
    rw [List.length_cons, Nat.succ_mul, Nat.add_comm]

/-- Nothing that a reload accounts for has changed. -/
theorem Grows.of_eq (P : DumpUse → Prop) (hdumps : s'.ribDumps = s.ribDumps)
    (haddr : s'.nextAddr = s.nextAddr) (hcnt : s'.softreconfig = s.softreconfig)
    (hlog : s'.reloads = s.reloads ∧ s'.outStarts = s.outStarts ∧ s'.reconfDone = s.reconfDone ∧
      s'.rounds = s.rounds ∧ s'.ribSize = s.ribSize ∧ s'.nconf = s.nconf) : Grows P 0 s s' := by
  obtain ⟨h₁, h₂, h₃, h₄, h₅, h₆⟩ := hlog
  refine ⟨⟨[], ?_, le_refl 0, fun _ hc => absurd hc List.not_mem_nil, ?_⟩, h₁, h₂, h₃, h₄, h₅, h₆,
    fun hw => ⟨?_, ?_⟩⟩
  · unfold ReloadState.countedDumps
    rw [hdumps, List.nil_append]
  · rw [hcnt]
    exact (add_zero _).symm
  · rw [hdumps]
    exact hw.nodup
  · rw [hdumps, haddr]
    exact hw.fresh

theorem Grows.setPeer (P : DumpUse → Prop) (s : ReloadState) (q : Ptr) (peer : DumpPeer) :
    Grows P 0 s (s.setPeer q peer) := Grows.of_eq P rfl rfl rfl ⟨rfl, rfl, rfl, rfl, rfl, rfl⟩

theorem Grows.setRib (P : DumpUse → Prop) (s : ReloadState) (id : ℕ) (rib : Option DumpRib) :
    Grows P 0 s (s.setRib id rib) := Grows.of_eq P rfl rfl rfl ⟨rfl, rfl, rfl, rfl, rfl, rfl⟩

theorem Grows.exit (P : DumpUse → Prop) (s : ReloadState) : Grows P 0 s { s with exited := true } :=
  Grows.of_eq P rfl rfl rfl ⟨rfl, rfl, rfl, rfl, rfl, rfl⟩

theorem DumpsWf.cons (h : DumpsWf s) {c : DumpCtx} (hc : c.addr = s.nextAddr) :
    DumpsWf { s with ribDumps := c :: s.ribDumps, nextAddr := s.nextAddr + 1 } := by
  refine ⟨List.nodup_cons.mpr ⟨fun hin => ?_, h.nodup⟩, fun x hx => ?_⟩
  · obtain ⟨x, hx, hxc⟩ := List.mem_map.mp hin
    have hlt := h.fresh x hx
    rw [hxc, hc] at hlt
    exact lt_irrefl _ hlt
  · rcases List.mem_cons.mp hx with rfl | hx
    · rw [hc]
      exact Nat.lt_succ_self _
    · exact Nat.lt_succ_of_lt (h.fresh x hx)

/-- A dump starts that is not counted. -/
theorem Grows.uncounted (P : DumpUse → Prop) {c : DumpCtx} (hc : c.addr = s.nextAddr)
    (huse : c.use.counted = false) :
    Grows P 0 s { s with ribDumps := c :: s.ribDumps, nextAddr := s.nextAddr + 1 } := by
  refine ⟨⟨[], ?_, le_refl 0, fun _ hc => absurd hc List.not_mem_nil, (add_zero _).symm⟩,
    rfl, rfl, rfl,
    rfl, rfl, rfl, fun hw => hw.cons hc⟩
  exact List.filter_cons_of_neg (by simp [huse])

/-- A dump starts and is counted. -/
theorem Grows.counted {id : ℕ} {use : DumpUse} {outbound : Bool} (huse : use.counted = true)
    (hP : P use) :
    Grows P 1 s { s.ribDumpNew id use outbound with softreconfig := s.softreconfig + 1 } := by
  refine ⟨⟨[{ addr := s.nextAddr, id := id, use := use, outbound := outbound }], ?_, le_refl 1,
    fun c hc => ?_, rfl⟩, rfl, rfl, rfl, rfl, rfl, rfl, fun hw => ?_⟩
  · exact List.filter_cons_of_pos (by simpa using huse)
  · obtain rfl := List.mem_singleton.mp hc
    exact ⟨rfl, hP⟩
  · obtain ⟨hnd, hfresh⟩ := hw.cons
      (c := { addr := s.nextAddr, id := id, use := use, outbound := outbound }) rfl
    exact ⟨hnd, hfresh⟩

theorem peerDump_grows (P : DumpUse → Prop) (s : ReloadState) (q : Ptr) (aid : Aid)
    (outbound : Bool) :
    Grows P 0 s (s.peerDump q aid outbound) := by
  unfold ReloadState.peerDump
  split
  · exact Grows.refl P s
  · exact Grows.refl P s
  · split_ifs
    · exact Grows.refl P s
    · exact Grows.uncounted P rfl rfl

theorem startSync_grows (s : ReloadState) (id : ℕ) :
    Grows (fun use => use.isOut = true) 1 s (s.startSync id) := by
  unfold ReloadState.startSync
  split
  · exact (Grows.refl _ s).mono (Nat.zero_le 1)
  · next rib _ =>
    have hset := Grows.setRib (fun use => use.isOut = true) s id
      (some { rib with state := .none })
    dsimp only
    split
    · exact hset.trans (Grows.counted rfl rfl)
    · exact hset.trans (Grows.counted rfl rfl)
    · exact hset.mono (Nat.zero_le 1)

theorem startPeer_grows (P : DumpUse → Prop) (s : ReloadState) (q : Ptr) :
    Grows P 0 s (s.startPeer q) := by
  unfold ReloadState.startPeer
  dsimp only
  split_ifs
  · have hdumps := Grows.foldl (fun s aid => peerDump_grows P s q aid true)
      (Aid.all.filter fun aid => (s.peers q).session.capa.mp aid) s
    rwa [Nat.mul_zero] at hdumps
  · split
    · exact Grows.setPeer P s q _
    · exact Grows.setPeer P s q _
    · split
      · exact Grows.exit P s
      · exact Grows.setRib P s _ _
  · exact Grows.refl P s

theorem startOut_grows (s : ReloadState) (id : ℕ) :
    Grows (fun use => use.isOut = true) 1 s (s.startOut id) := by
  unfold ReloadState.startOut
  split
  · exact (Grows.refl _ s).mono (Nat.zero_le 1)
  · split_ifs
    · exact Grows.counted rfl rfl
    · exact (Grows.refl _ s).mono (Nat.zero_le 1)

end Grows

/-! ## The end of a dump -/

/-- A dump that is removed leaves the other counted dumps. -/
theorem countedDumps_filter (s : ReloadState) (l : List DumpCtx) (addr : Ptr) :
    ReloadState.countedDumps { s with ribDumps := l.filter fun x => x.addr ≠ addr } =
      (ReloadState.countedDumps { s with ribDumps := l }).filter fun x => x.addr ≠ addr := by
  unfold ReloadState.countedDumps
  dsimp only
  rw [List.filter_filter, List.filter_filter]
  exact List.filter_congr fun x _ => Bool.and_comm _ _

theorem DumpsWf.remove {s : ReloadState} (h : DumpsWf s) (addr : Ptr) :
    DumpsWf { s with ribDumps := s.ribDumps.filter fun x => x.addr ≠ addr } :=
  ⟨(h.nodup.sublist ((List.filter_sublist (l := s.ribDumps)).map _)),
    fun c hc => h.fresh c (List.mem_filter.mp hc).1⟩

/-- One guy done but other dumps are still running. -/
theorem rdeSoftreconfigInDone_more {s : ReloadState} (hmore : 1 < s.softreconfig) :
    s.rdeSoftreconfigInDone = { s with softreconfig := s.softreconfig - 1 } := by
  unfold ReloadState.rdeSoftreconfigInDone
  exact if_pos (by show s.softreconfig - 1 > 0; omega)

/-- Each RIB is walked over twice at most. -/
theorem startOutbound_grows (s : ReloadState) :
    Grows (fun use => use.isOut = true) (2 * s.ribSize) s s.startOutbound := by
  let a := (List.range s.ribSize).foldl ReloadState.startSync s
  let b := a.peertable.foldl ReloadState.startPeer a
  have ha := Grows.foldl startSync_grows (List.range s.ribSize) s
  have hb := Grows.foldl (startPeer_grows fun use => use.isOut = true) a.peertable a
  have hc := Grows.foldl startOut_grows (List.range b.ribSize) b
  -- the array of RIBs stays as it is
  have hsize : b.ribSize = s.ribSize := (ha.trans hb).ribSize
  refine ((ha.trans hb).trans hc).mono ?_
  rw [List.length_range, List.length_range, hsize]
  omega

/-- The last inbound dump starts the outbound ones. -/
theorem rdeSoftreconfigInDone_last {s : ReloadState} (hlast : s.softreconfig = 1) :
    ∃ s₁, Grows (fun use => use.isOut = true) (2 * s.ribSize)
        { s with softreconfig := 0, outStarts := s.outStarts + 1 } s₁ ∧
      s.rdeSoftreconfigInDone = if s₁.softreconfig = 0 then s₁.rdeSoftreconfigDone else s₁ := by
  refine ⟨_, startOutbound_grows { s with softreconfig := 0, outStarts := s.outStarts + 1 }, ?_⟩
  unfold ReloadState.rdeSoftreconfigInDone
  exact if_neg (by show ¬ s.softreconfig - 1 > 0; omega)

/-! ## Invariant -/

/-- The dumps that are left, and how far the last reload has come. -/
structure ReloadInv (keys : ℕ) (s : ReloadState) : Prop where
  wf : DumpsWf s
  pos : ∀ c ∈ s.countedDumps, c.pos ≤ keys
  counter : s.softreconfig = s.countedDumps.length
  phase :
    (s.countedDumps = [] ∧ s.outStarts = s.reloads ∧ s.reconfDone = s.reloads) ∨
    (s.countedDumps ≠ [] ∧ (∀ c ∈ s.countedDumps, c.use.isIn = true) ∧
      s.outStarts + 1 = s.reloads ∧ s.reconfDone + 1 = s.reloads) ∨
    (s.countedDumps ≠ [] ∧ (∀ c ∈ s.countedDumps, c.use.isOut = true) ∧
      s.outStarts = s.reloads ∧ s.reconfDone + 1 = s.reloads)
  nconf : s.nconf = true → s.reconfDone = s.reloads

/-- The rounds that counted dumps can still take, those of dumps to come included: each RIB may be
    walked over twice in the outbound phase. -/
def roundsLeft (keys : ℕ) (s : ReloadState) : ℕ :=
  (s.countedDumps.map fun c => keys + 1 - c.pos).sum +
    (s.reloads - s.outStarts) * (2 * s.ribSize * (keys + 1))

/-- What the end of a dump leaves: the other dumps that were there, and at least `n` rounds
    less. -/
structure Ended (keys n : ℕ) (s s' : ReloadState) : Prop where
  inv : ReloadInv keys s'
  less : roundsLeft keys s' + n ≤ roundsLeft keys s
  rounds : s'.rounds = s.rounds
  nconf : s'.nconf = s.nconf

section Ended

variable {keys : ℕ} {s s' : ReloadState} {c : DumpCtx}

/-- A counted dump that has not paused yet has `keys + 1` rounds left. -/
theorem sum_new {new : List DumpCtx} (hnew : ∀ c ∈ new, c.pos = 0) :
    (new.map fun c => keys + 1 - c.pos).sum = new.length * (keys + 1) := by
  induction new with
  | nil => exact (Nat.zero_mul _).symm
  | cons c new ih =>
    obtain ⟨hc, hrest⟩ := List.forall_mem_cons.mp hnew
    rw [List.map_cons, List.sum_cons, ih hrest, hc, List.length_cons, Nat.succ_mul]
    omega

/-- The rounds of a dump and of the other ones. -/
theorem sum_filter {l : List DumpCtx} (hnd : (l.map DumpCtx.addr).Nodup) (hc : c ∈ l) :
    (l.map fun x => keys + 1 - x.pos).sum =
      (keys + 1 - c.pos) + ((l.filter fun x => x.addr ≠ c.addr).map fun x => keys + 1 - x.pos).sum ∧
    l.length = (l.filter fun x => x.addr ≠ c.addr).length + 1 := by
  have hperm := perm_cons_filter_ne hnd hc
  exact ⟨(hperm.map _).sum_eq, hperm.length_eq⟩

theorem ctxDone_other (huse : c.use.counted = false) : s.ctxDone c = s := by
  obtain ⟨addr, id, use, pos, outbound⟩ := c
  cases use with
  | dump q aid => rfl
  | blast q aid => rfl
  | reaper q => rfl
  | other ribCall arg => rfl
  | _ => exact absurd huse Bool.false_ne_true.symm

/-- A dump that is not counted ends. -/
theorem ribDumpFree_uncounted (hw : DumpsWf s) (hc : c ∈ s.ribDumps) (huse : c.use.counted = false)
    (P : DumpUse → Prop) : Grows P 0 s (s.ribDumpFree c) := by
  have hfree : s.ribDumpFree c =
      { s with ribDumps := s.ribDumps.filter fun x => x.addr ≠ c.addr } := by
    unfold ReloadState.ribDumpFree
    rw [ctxDone_other huse]
  rw [hfree]
  refine ⟨⟨[], ?_, le_refl 0, fun _ hc => absurd hc List.not_mem_nil, (add_zero _).symm⟩,
    rfl, rfl, rfl,
    rfl, rfl, rfl, fun _ => hw.remove c.addr⟩
  refine (countedDumps_filter s s.ribDumps c.addr).trans (List.filter_eq_self.mpr fun x hx => ?_)
  -- the counted dumps are other objects
  obtain ⟨hx, hcounted⟩ := List.mem_filter.mp hx
  refine decide_eq_true fun haddr => ?_
  obtain rfl := List.inj_on_of_nodup_map hw.nodup hx hc haddr
  rw [huse] at hcounted
  exact nomatch hcounted

theorem Grows.ended (h : ReloadInv keys s) (hg : Grows (fun _ => False) 0 s s') :
    Ended keys 0 s s' := by
  obtain ⟨new, hdumps, hlen, -, hcnt⟩ := hg.dumps
  obtain rfl := List.length_eq_zero_iff.mp (Nat.le_zero.mp hlen)
  rw [List.nil_append] at hdumps
  refine ⟨⟨hg.wf h.wf, ?_, ?_, ?_, ?_⟩, ?_, hg.rounds, hg.nconf⟩
  · rw [hdumps]
    exact h.pos
  · rw [hcnt, hdumps]
    simpa using h.counter
  · rw [hdumps, hg.outStarts, hg.reloads, hg.reconfDone]
    exact h.phase
  · rw [hg.nconf, hg.reconfDone, hg.reloads]
    exact h.nconf
  · unfold roundsLeft
    rw [hdumps, hg.outStarts, hg.reloads, hg.ribSize]
    omega

/-- What is left of the counted dumps when one of them is removed. -/
theorem countedDumps_free {t : ReloadState} {new : List DumpCtx} (hw : DumpsWf t)
    (hc : c ∈ s.countedDumps) (ht : t.countedDumps = new ++ s.countedDumps) :
    ReloadState.countedDumps { t with ribDumps := t.ribDumps.filter fun x => x.addr ≠ c.addr } =
      new ++ s.countedDumps.filter fun x => x.addr ≠ c.addr := by
  have hnd : ((new ++ s.countedDumps).map DumpCtx.addr).Nodup := by
    rw [← ht]
    exact hw.nodup.sublist (List.filter_sublist.map _)
  refine (countedDumps_filter t t.ribDumps c.addr).trans ?_
  show t.countedDumps.filter _ = _
  rw [ht, List.filter_append]
  congr 1
  refine List.filter_eq_self.mpr fun x hx => decide_eq_true fun haddr => ?_
  rw [List.map_append, List.nodup_append] at hnd
  exact hnd.2.2 x.addr (List.mem_map_of_mem hx) c.addr (List.mem_map_of_mem hc) haddr

/-- The counted dumps with one of them apart. -/
theorem counted_split (h : ReloadInv keys s) (hc : c ∈ s.countedDumps) :
    (s.countedDumps.map fun x => keys + 1 - x.pos).sum = (keys + 1 - c.pos) +
      ((s.countedDumps.filter fun x => x.addr ≠ c.addr).map fun x => keys + 1 - x.pos).sum ∧
    s.countedDumps.length = (s.countedDumps.filter fun x => x.addr ≠ c.addr).length + 1 :=
  sum_filter (h.wf.nodup.sublist (List.filter_sublist.map _)) hc

theorem isIn_of_isOut {use : DumpUse} (h : use.isOut = true) : use.isIn = false := by
  cases use <;> first | rfl | exact nomatch h

/-- What `rde_softreconfig_out_done` changes. -/
structure OutDone (s t : ReloadState) : Prop where
  ribDumps : t.ribDumps = s.ribDumps
  nextAddr : t.nextAddr = s.nextAddr
  softreconfig : t.softreconfig = s.softreconfig - 1
  reconfDone : t.reconfDone = if s.softreconfig = 1 then s.reconfDone + 1 else s.reconfDone
  reloads : t.reloads = s.reloads
  outStarts : t.outStarts = s.outStarts
  rounds : t.rounds = s.rounds
  nconf : t.nconf = s.nconf

theorem rdeSoftreconfigOutDone_spec (s : ReloadState) : OutDone s s.rdeSoftreconfigOutDone := by
  unfold ReloadState.rdeSoftreconfigOutDone
  dsimp only
  by_cases hone : s.softreconfig = 1
  · rw [if_pos (by omega)]
    exact ⟨rfl, rfl, rfl, (if_pos hone).symm, rfl, rfl, rfl, rfl⟩
  · rw [if_neg (by omega)]
    exact ⟨rfl, rfl, rfl, (if_neg hone).symm, rfl, rfl, rfl, rfl⟩

/-- The end of an outbound dump. -/
theorem ctxDone_out (huse : c.use.isOut = true) : OutDone s (s.ctxDone c) := by
  have hsync : ∀ rid, OutDone s (s.rdeSoftreconfigSyncDone rid) := fun rid => by
    obtain ⟨h₁, h₂, h₃, h₄, h₅, h₆, h₇, h₈⟩ := rdeSoftreconfigOutDone_spec
      (s.setRib rid ((s.ribs rid).map fun rib => { rib with fibstate := .none }))
    exact ⟨h₁, h₂, h₃, h₄, h₅, h₆, h₇, h₈⟩
  obtain ⟨addr, id, use, pos, outbound⟩ := c
  cases use with
  | syncFib rid => exact hsync rid
  | syncReeval rid => exact hsync rid
  | softreconfigOut rid => exact rdeSoftreconfigOutDone_spec s
  | _ => exact absurd huse Bool.false_ne_true

/-- An outbound dump ends. -/
theorem outDone_ended (h : ReloadInv keys s) (hc : c ∈ s.countedDumps) (huse : c.use.isOut = true) :
    Ended keys (keys + 1 - c.pos) s (s.ribDumpFree c) := by
  obtain ⟨hsum, hlen⟩ := counted_split h hc
  have ht := ctxDone_out (s := s) huse
  -- an outbound dump is left, so the inbound phase is over
  obtain ⟨houts, hrec, hall⟩ : s.outStarts = s.reloads ∧ s.reconfDone + 1 = s.reloads ∧
      ∀ x ∈ s.countedDumps, x.use.isOut = true := by
    rcases h.phase with ⟨hnil, -⟩ | ⟨-, hin, -⟩ | ⟨-, hout, ho, hr⟩
    · rw [hnil] at hc
      exact absurd hc List.not_mem_nil
    · exact absurd (hin c hc) (by rw [isIn_of_isOut huse]; exact Bool.false_ne_true)
    · exact ⟨ho, hr, hout⟩
  have hwt : DumpsWf (s.ctxDone c) :=
    ⟨ht.ribDumps ▸ h.wf.nodup, ht.ribDumps ▸ ht.nextAddr ▸ h.wf.fresh⟩
  have hdumps : (s.ribDumpFree c).countedDumps = s.countedDumps.filter fun x => x.addr ≠
      c.addr := by
    refine countedDumps_free hwt hc (show (s.ctxDone c).countedDumps = [] ++ s.countedDumps from ?_)
    unfold ReloadState.countedDumps
    rw [ht.ribDumps, List.nil_append]
  have hsub : ∀ x ∈ (s.ribDumpFree c).countedDumps, x ∈ s.countedDumps := fun x hx =>
    (List.mem_filter.mp (hdumps ▸ hx)).1
  have hcnt := h.counter
  refine ⟨⟨hwt.remove c.addr, fun x hx => h.pos x (hsub x hx), ?_, ?_, ?_⟩, ?_, ht.rounds, ht.nconf⟩
  · rw [hdumps]
    show (s.ctxDone c).softreconfig = _
    rw [ht.softreconfig]
    omega
  · show _ ∨ _ ∨ _
    by_cases hnil : (s.countedDumps.filter fun x => x.addr ≠ c.addr) = []
    · -- the last one: the reload is reported
      have hone : s.softreconfig = 1 := by
        rw [hnil, List.length_nil] at hlen
        omega
      refine Or.inl ⟨hdumps.trans hnil, (ht.outStarts.trans houts).trans ht.reloads.symm, ?_⟩
      refine ht.reconfDone.trans ?_
      rw [if_pos hone, hrec]
      exact ht.reloads.symm
    -- other dumps are left
    · have hmore : s.softreconfig ≠ 1 := by
        have hpos := List.length_pos_of_ne_nil hnil
        omega
      refine Or.inr (Or.inr ⟨fun hc => hnil (hdumps.symm.trans hc), fun x hx => hall x (hsub x hx),
        (ht.outStarts.trans houts).trans ht.reloads.symm, ?_⟩)
      show (s.ctxDone c).reconfDone + 1 = (s.ctxDone c).reloads
      rw [ht.reconfDone, if_neg hmore, hrec, ht.reloads]
  · intro hnconf
    have hover := h.nconf (ht.nconf.symm.trans hnconf)
    omega
  · have hzero : (s.ctxDone c).reloads - (s.ctxDone c).outStarts = 0 := by
      rw [ht.reloads, ht.outStarts, houts, Nat.sub_self]
    unfold roundsLeft
    rw [hdumps, hsum]
    show _ + ((s.ctxDone c).reloads - (s.ctxDone c).outStarts) * _ + _ ≤ _
    rw [hzero, Nat.zero_mul]
    omega

theorem ctxDone_in (huse : c.use.isIn = true) : s.ctxDone c = s.rdeSoftreconfigInDone := by
  obtain ⟨addr, id, use, pos, outbound⟩ := c
  cases use with
  | flush q => rfl
  | softreconfigIn => rfl
  | _ => exact absurd huse Bool.false_ne_true

/-- An inbound dump is left, so the outbound phase has not begun. -/
theorem inbound_phase (h : ReloadInv keys s) (hc : c ∈ s.countedDumps) (huse : c.use.isIn = true) :
    (∀ x ∈ s.countedDumps, x.use.isIn = true) ∧ s.outStarts + 1 = s.reloads ∧
      s.reconfDone + 1 = s.reloads := by
  rcases h.phase with ⟨hnil, -⟩ | ⟨-, hin, ho, hr⟩ | ⟨-, hout, -⟩
  · rw [hnil] at hc
    exact absurd hc List.not_mem_nil
  · exact ⟨hin, ho, hr⟩
  · rw [isIn_of_isOut (hout c hc)] at huse
    exact nomatch huse

/-- An inbound dump ends, and others are still running. -/
theorem inDone_more (h : ReloadInv keys s) (hc : c ∈ s.countedDumps) (huse : c.use.isIn = true)
    (hmore : 1 < s.softreconfig) : Ended keys (keys + 1 - c.pos) s (s.ribDumpFree c) := by
  obtain ⟨hsum, hlen⟩ := counted_split h hc
  obtain ⟨hall, houts, hrec⟩ := inbound_phase h hc huse
  have hfree : s.ribDumpFree c = { s with
      softreconfig := s.softreconfig - 1
      ribDumps := s.ribDumps.filter fun x => x.addr ≠ c.addr } := by
    unfold ReloadState.ribDumpFree
    rw [ctxDone_in huse, rdeSoftreconfigInDone_more hmore]
  have hdumps : (s.ribDumpFree c).countedDumps = s.countedDumps.filter fun x => x.addr ≠
      c.addr := by
    rw [hfree]
    exact countedDumps_filter s s.ribDumps c.addr
  have hsub : ∀ x ∈ (s.ribDumpFree c).countedDumps, x ∈ s.countedDumps := fun x hx =>
    (List.mem_filter.mp (hdumps ▸ hx)).1
  have hcnt := h.counter
  have hne : (s.ribDumpFree c).countedDumps ≠ [] := by
    rw [hdumps]
    refine List.ne_nil_of_length_pos ?_
    omega
  refine ⟨⟨?_, fun x hx => h.pos x (hsub x hx), ?_, ?_, ?_⟩, ?_, ?_, ?_⟩
  · have hw := h.wf.remove c.addr
    rw [hfree]
    exact ⟨hw.nodup, hw.fresh⟩
  · rw [hdumps, hfree]
    show s.softreconfig - 1 = _
    omega
  · refine Or.inr (Or.inl ⟨hne, fun x hx => hall x (hsub x hx), ?_⟩)
    rw [hfree]
    exact ⟨houts, hrec⟩
  · rw [hfree]
    exact h.nconf
  · unfold roundsLeft
    rw [hdumps, hsum, hfree]
    dsimp only
    omega
  · rw [hfree]
  · rw [hfree]

/-- The start of the outbound phase, which is over at once if there is nothing to do. -/
theorem outbound_inv {t : ReloadState} {new : List DumpCtx} (hw : DumpsWf t)
    (hnew : t.countedDumps = new) (hall : ∀ x ∈ new, x.pos = 0 ∧ x.use.isOut = true)
    (hcnt : t.softreconfig = new.length) (houts : t.outStarts = t.reloads)
    (hdone : t.reconfDone + (if new = [] then 0 else 1) = t.reloads) (hnconf : t.nconf = false) :
    ReloadInv keys t := by
  refine ⟨hw, fun x hx => ?_, ?_, ?_, fun hc => ?_⟩
  · rw [hnew] at hx
    rw [(hall x hx).1]
    exact Nat.zero_le _
  · rw [hnew, hcnt]
  · rw [hnew]
    by_cases hnone : new = []
    · rw [if_pos hnone] at hdone
      exact Or.inl ⟨hnone, houts, hdone⟩
    · rw [if_neg hnone] at hdone
      exact Or.inr (Or.inr ⟨hnone, fun x hx => (hall x hx).2, houts, hdone⟩)
  · rw [hnconf] at hc
    exact absurd hc Bool.false_ne_true

/-- The last inbound dump ends: the outbound phase starts. -/
theorem inDone_last (h : ReloadInv keys s) (hc : c ∈ s.countedDumps) (huse : c.use.isIn = true)
    (hlast : s.softreconfig = 1) : Ended keys (keys + 1 - c.pos) s (s.ribDumpFree c) := by
  obtain ⟨hsum, hlen⟩ := counted_split h hc
  obtain ⟨-, houts, hrec⟩ := inbound_phase h hc huse
  obtain ⟨s₁, hg, heq⟩ := rdeSoftreconfigInDone_last hlast
  obtain ⟨new, hnew, hn, hall, hcnt⟩ := hg.dumps
  rw [zero_add] at hcnt
  -- it is the only dump that counts
  have hone : s.countedDumps.length = 1 := by
    have := h.counter
    omega
  have hnil : (s.countedDumps.filter fun x => x.addr ≠ c.addr) = [] :=
    List.length_eq_zero_iff.mp (by omega)
  have hw₁ : DumpsWf s₁ := hg.wf ⟨h.wf.nodup, h.wf.fresh⟩
  -- what the outbound phase has to do decides if it is over at once
  obtain ⟨t, ht, hdumps, hfields⟩ : ∃ t, s.ribDumpFree c = t ∧ t.countedDumps = new ∧ DumpsWf t ∧
      t.softreconfig = new.length ∧ t.reloads = s.reloads ∧ t.outStarts = s.outStarts + 1 ∧
      t.reconfDone = (if new = [] then s.reconfDone + 1 else s.reconfDone) ∧ t.rounds = s.rounds ∧
      t.nconf = s.nconf ∧ t.ribSize = s.ribSize := by
    unfold ReloadState.ribDumpFree
    rw [ctxDone_in huse, heq]
    by_cases hover : s₁.softreconfig = 0
    -- nothing to do outbound: the reload ends here
    · have hnew0 : new = [] := List.length_eq_zero_iff.mp (by omega)
      have hwd : DumpsWf s₁.rdeSoftreconfigDone := ⟨hw₁.nodup, hw₁.fresh⟩
      rw [if_pos hover, if_pos hnew0]
      refine ⟨_, rfl, ?_, hwd.remove c.addr, hcnt, hg.reloads, hg.outStarts, ?_,
        hg.rounds, hg.nconf, hg.ribSize⟩
      · exact (countedDumps_free hwd hc hnew).trans
          (by rw [hnil, List.append_nil])
      · exact congrArg (· + 1) hg.reconfDone
    -- the outbound dumps take over the counter
    · have hnew0 : new ≠ [] := fun hc => hover (by rw [hcnt, hc]; rfl)
      rw [if_neg hover, if_neg hnew0]
      refine ⟨_, rfl, ?_, hw₁.remove c.addr, hcnt, hg.reloads, hg.outStarts, hg.reconfDone,
        hg.rounds, hg.nconf, hg.ribSize⟩
      exact (countedDumps_free hw₁ hc hnew).trans (by rw [hnil, List.append_nil])
  obtain ⟨hwt, hcntt, hreloads, hstarts, hdone, hrounds, hnconf, hsize⟩ := hfields
  rw [ht]
  have hfalse : t.nconf = false := Bool.eq_false_iff.mpr fun hc => by
    have hover := h.nconf (hnconf.symm.trans hc)
    omega
  refine ⟨outbound_inv hwt hdumps hall hcntt ?_ ?_ hfalse, ?_, hrounds, hnconf⟩
  · rw [hstarts, hreloads]
    exact houts
  · rw [hdone, hreloads]
    split_ifs <;> omega
  · have hone : s.reloads - s.outStarts = 1 := by omega
    have hzero : s.reloads - (s.outStarts + 1) = 0 := by omega
    have hbound : new.length * (keys + 1) ≤ 2 * s.ribSize * (keys + 1) := Nat.mul_le_mul_right _ hn
    unfold roundsLeft
    rw [hdumps, hreloads, hstarts, hsize, sum_new fun x hx => (hall x hx).1, hsum, hone, hzero]
    omega

/-- The end of a dump, whether it came to its end or is cut off. -/
theorem ribDumpFree_inv (h : ReloadInv keys s) (hc : c ∈ s.ribDumps) :
    Ended keys (if c.use.counted then keys + 1 - c.pos else 0) s (s.ribDumpFree c) := by
  by_cases hcounted : c.use.counted = true
  · have hmem : c ∈ s.countedDumps := List.mem_filter.mpr ⟨hc, hcounted⟩
    rw [if_pos hcounted]
    rcases (Bool.or_eq_true _ _).mp hcounted with hin | hout
    · have hpos := List.length_pos_of_mem hmem
      have hcnt := h.counter
      by_cases hlast : s.softreconfig = 1
      · exact inDone_last h hmem hin hlast
      · exact inDone_more h hmem hin (by omega)
    · exact outDone_ended h hmem hout
  · rw [if_neg hcounted]
    exact (ribDumpFree_uncounted h.wf hc (Bool.eq_false_iff.mpr hcounted) _).ended h

theorem Ended.weaken {n : ℕ} (h : Ended keys n s s') : Ended keys 0 s s' :=
  ⟨h.inv, (Nat.le_add_right _ n).trans h.less, h.rounds, h.nconf⟩

theorem Ended.trans {s₁ : ReloadState} (h : Ended keys 0 s s₁) (h' : Ended keys 0 s₁ s') :
    Ended keys 0 s s' :=
  ⟨h'.inv, h'.less.trans h.less, h'.rounds.trans h.rounds, h'.nconf.trans h.nconf⟩

theorem Ended.refl (h : ReloadInv keys s) : Ended keys 0 s s := ⟨h, le_refl _, rfl, rfl⟩

end Ended

/-! ## Dumps that are cut off -/

section Terminate

variable {keys : ℕ} {s s' : ReloadState} {c : DumpCtx}

theorem suffix_foldl {α : Type*} {f : ReloadState → α → ReloadState}
    (hf : ∀ s a, s.ribDumps <:+ (f s a).ribDumps) (l : List α) (s : ReloadState) :
    s.ribDumps <:+ (l.foldl f s).ribDumps := by
  induction l generalizing s with
  | nil => exact List.suffix_refl _
  | cons a l ih => exact (hf s a).trans (ih (f s a))

theorem peerDump_suffix (s : ReloadState) (q : Ptr) (aid : Aid) (outbound : Bool) :
    s.ribDumps <:+ (s.peerDump q aid outbound).ribDumps := by
  unfold ReloadState.peerDump
  split
  · exact List.suffix_refl _
  · exact List.suffix_refl _
  · split_ifs
    · exact List.suffix_refl _
    · exact List.suffix_cons _ _

theorem startSync_suffix (s : ReloadState) (id : ℕ) : s.ribDumps <:+ (s.startSync id).ribDumps := by
  unfold ReloadState.startSync
  split
  · exact List.suffix_refl _
  · dsimp only
    split
    · exact List.suffix_cons _ _
    · exact List.suffix_cons _ _
    · exact List.suffix_refl _

theorem startPeer_suffix (s : ReloadState) (q : Ptr) : s.ribDumps <:+ (s.startPeer q).ribDumps := by
  unfold ReloadState.startPeer
  dsimp only
  split_ifs
  · exact suffix_foldl (fun s aid => peerDump_suffix s q aid true) _ s
  · split
    · exact List.suffix_refl _
    · exact List.suffix_refl _
    · split
      · exact List.suffix_refl _
      · exact List.suffix_refl _
  · exact List.suffix_refl _

theorem startOut_suffix (s : ReloadState) (id : ℕ) : s.ribDumps <:+ (s.startOut id).ribDumps := by
  unfold ReloadState.startOut
  split
  · exact List.suffix_refl _
  · split_ifs
    · exact List.suffix_cons _ _
    · exact List.suffix_refl _

theorem startOutbound_suffix (s : ReloadState) : s.ribDumps <:+ s.startOutbound.ribDumps :=
  ((suffix_foldl startSync_suffix _ s).trans (suffix_foldl startPeer_suffix _ _)).trans
    (suffix_foldl startOut_suffix _ _)

theorem rdeSoftreconfigInDone_suffix (s : ReloadState) :
    s.ribDumps <:+ s.rdeSoftreconfigInDone.ribDumps := by
  have hstart := startOutbound_suffix { s with softreconfig := 0, outStarts := s.outStarts + 1 }
  unfold ReloadState.rdeSoftreconfigInDone
  dsimp only
  split_ifs
  · exact List.suffix_refl _
  · exact hstart
  · exact hstart

/-- A callback puts contexts in front of the list and does not take any away. -/
theorem ctxDone_suffix (s : ReloadState) (c : DumpCtx) : s.ribDumps <:+ (s.ctxDone c).ribDumps := by
  by_cases hin : c.use.isIn = true
  · rw [ctxDone_in hin]
    exact rdeSoftreconfigInDone_suffix s
  · by_cases hout : c.use.isOut = true
    · rw [(ctxDone_out hout).ribDumps]
    · rw [ctxDone_other (by simp [DumpUse.counted, hin, hout])]

/-- The other contexts are still there. -/
theorem mem_ribDumpFree {x : DumpCtx} (hx : x ∈ s.ribDumps) (hne : x.addr ≠ c.addr) :
    x ∈ (s.ribDumpFree c).ribDumps :=
  List.mem_filter.mpr ⟨(ctxDone_suffix s c).subset hx, decide_eq_true hne⟩

/-- Contexts that are cut off one after the other. -/
theorem foldl_free_inv (cut : DumpCtx → Prop) [DecidablePred cut] {l : List DumpCtx}
    (hnd : (l.map DumpCtx.addr).Nodup) (hl : ∀ c ∈ l, c ∈ s.ribDumps) (h : ReloadInv keys s) :
    Ended keys 0 s (l.foldl (fun s c => if cut c then s.ribDumpFree c else s) s) := by
  induction l generalizing s with
  | nil => exact Ended.refl h
  | cons c l ih =>
    obtain ⟨hc, hrest⟩ := List.forall_mem_cons.mp hl
    obtain ⟨hnin, hnd⟩ := List.nodup_cons.mp hnd
    rw [List.foldl_cons]
    by_cases hcut : cut c
    · rw [if_pos hcut]
      have hone := (ribDumpFree_inv h hc).weaken
      refine hone.trans (ih hnd (fun x hx => ?_) hone.inv)
      exact mem_ribDumpFree (hrest x hx) fun haddr => hnin (haddr ▸ List.mem_map_of_mem hx)
    · rw [if_neg hcut]
      exact ih hnd hrest h

theorem ribDumpTerminate_inv (h : ReloadInv keys s) (arg : CtxArg) :
    Ended keys 0 s (s.ribDumpTerminate arg) :=
  foldl_free_inv (fun c => c.use.arg = arg) h.wf.nodup (fun _ hc => hc) h

end Terminate

/-! ## Sessions -/

section Sessions

variable {keys : ℕ} {s : ReloadState}

/-- A change that a reload does not account for. -/
theorem ReloadInv.of_grows {s' : ReloadState} (h : ReloadInv keys s)
    (hg : Grows (fun _ => False) 0 s s') : Ended keys 0 s s' := hg.ended h

theorem peerAdd_inv (h : ReloadInv keys s) (q : Ptr) (id : PeerId) (conf : DumpConf) :
    Ended keys 0 s (s.peerAdd q id conf) := by
  unfold ReloadState.peerAdd
  split
  · exact h.of_grows (Grows.setPeer _ s _ _)
  · split
    · exact h.of_grows (Grows.exit _ s)
    · exact h.of_grows (Grows.of_eq _ rfl rfl rfl ⟨rfl, rfl, rfl, rfl, rfl, rfl⟩)

theorem peerDown_inv (h : ReloadInv keys s) (q : Ptr) : Ended keys 0 s (s.peerDown q) := by
  have hset := h.of_grows (Grows.setPeer _ s q { s.peers q with state := .down })
  exact hset.trans (ribDumpTerminate_inv hset.inv (.peer q))

theorem peerBlast_grows (P : DumpUse → Prop) (s : ReloadState) (q : Ptr) (aid : Aid) :
    Grows P 0 s (s.peerBlast q aid) := Grows.uncounted P rfl rfl

/-- A peer that comes up keeps the invariant of the reload. -/
theorem peerUp_inv (h : ReloadInv keys s) (q : Ptr) (sup : SessionUp) :
    Ended keys 0 s (s.peerUp q sup) := by
  unfold ReloadState.peerUp
  dsimp only
  have hreset : Ended keys 0 s (if (s.peers q).state = .err then s.peerDown q else s) := by
    split_ifs
    · exact peerDown_inv h q
    · exact Ended.refl h
  generalize (if (s.peers q).state = .err then s.peerDown q else s) = s₁ at hreset
  refine hreset.trans (hreset.inv.of_grows ?_)
  have hset := Grows.setPeer (fun _ => False) s₁ q
    { s₁.peers q with session := sup, state := .up }
  have hdumps := Grows.foldl (P := fun _ => False) (n := 0)
    (f := fun s aid => if (s₁.peers q).session ≠ sup then s.peerDump q aid false
      else s.peerBlast q aid)
    (fun s aid => by
      split_ifs
      · exact peerDump_grows _ s q aid false
      · exact peerBlast_grows _ s q aid)
    (Aid.all.filter fun aid => sup.capa.mp aid)
    (s₁.setPeer q { s₁.peers q with session := sup, state := .up })
  rw [Nat.mul_zero] at hdumps
  exact hset.trans hdumps

theorem peerDelete_inv (h : ReloadInv keys s) (q : Ptr) : Ended keys 0 s (s.peerDelete q) := by
  unfold ReloadState.peerDelete
  dsimp only
  have hdown : Ended keys 0 s (if (s.peers q).state ≠ .down then s.peerDown q else s) := by
    split_ifs
    · exact peerDown_inv h q
    · exact Ended.refl h
  generalize (if (s.peers q).state ≠ .down then s.peerDown q else s) = s₁ at hdown
  have herase : Grows (fun _ => False) 0 s₁ { s₁ with peertable := s₁.peertable.erase q } :=
    Grows.of_eq _ rfl rfl rfl ⟨rfl, rfl, rfl, rfl, rfl, rfl⟩
  exact hdown.trans (hdown.inv.of_grows (herase.trans (Grows.uncounted _ rfl rfl)))

end Sessions

/-! ## Reloads -/

/-- Flushes of an Adj-RIB-Out. -/
def DumpUse.IsFlush (use : DumpUse) : Prop := ∃ q, use = .flush q

/-- A part of `rde_reload_done` starts nothing but flushes, as long as nothing else is counted. -/
def Flushing (s s' : ReloadState) : Prop :=
  DumpsWf s → (∀ c ∈ s.countedDumps, c.use.IsFlush) → ∃ n, Grows DumpUse.IsFlush n s s'

section Reload

variable {keys : ℕ} {s s' : ReloadState}

theorem Flushing.trans {s₁ : ReloadState} (h : Flushing s s₁) (h' : Flushing s₁ s') :
    Flushing s s' := by
  intro hw hall
  obtain ⟨n, hg⟩ := h hw hall
  obtain ⟨m, hg'⟩ := h' (hg.wf hw) (hg.all hall)
  exact ⟨n + m, hg.trans hg'⟩

theorem Grows.flushing {n : ℕ} (h : Grows DumpUse.IsFlush n s s') : Flushing s s' :=
  fun _ _ => ⟨n, h⟩

theorem Flushing.foldl {α β : Type*} (g : β → ReloadState) {f : β → α → β}
    (hf : ∀ b a, Flushing (g b) (g (f b a))) (l : List α) (b : β) :
    Flushing (g b) (g (l.foldl f b)) := by
  induction l generalizing b with
  | nil => exact (Grows.refl _ (g b)).flushing
  | cons a l ih => exact (hf b a).trans (ih (f b a))

theorem startFlush_grows (s : ReloadState) (q : Ptr) :
    Grows DumpUse.IsFlush 1 s (s.startFlush q) := Grows.counted rfl ⟨q, rfl⟩

/-- A peer gets its new settings, and its Adj-RIB-Out may have to be flushed. -/
theorem setPeer_flushing (s : ReloadState) (q : Ptr) (peer : DumpPeer) (flush : Bool) :
    Flushing s (if flush then (s.setPeer q peer).startFlush q else s.setPeer q peer) := by
  split_ifs
  · exact ((Grows.setPeer _ s q peer).trans (startFlush_grows _ q)).flushing
  · exact (Grows.setPeer _ s q peer).flushing

theorem reloadPeer_flushing (nconf : NewConf) (a : ReloadState × ℕ) (q : Ptr) :
    Flushing a.1 (ReloadState.reloadPeer nconf a q).1 := by
  unfold ReloadState.reloadPeer
  dsimp only
  by_cases hid : (a.1.peers q).id = 0
  · rw [if_pos hid]
    exact (Grows.refl _ a.1).flushing
  · rw [if_neg hid]
    split
    · exact (Grows.exit _ a.1).flushing
    · exact setPeer_flushing a.1 q _ _

theorem reinitPeer_flushing (rid : ℕ) (s : ReloadState) (q : Ptr) :
    Flushing s (ReloadState.reinitPeer rid s q) := by
  unfold ReloadState.reinitPeer
  split_ifs
  · exact (Grows.refl _ s).flushing
  · exact (Grows.refl _ s).flushing
  · exact (Grows.refl _ s).flushing
  · exact (startFlush_grows s q).flushing

/-- Contexts that are not counted are cut off one after the other. -/
theorem foldl_free_grows (cut : DumpCtx → Prop) [DecidablePred cut] {l : List DumpCtx}
    (hnd : (l.map DumpCtx.addr).Nodup) (hl : ∀ c ∈ l, c ∈ s.ribDumps)
    (hcut : ∀ c ∈ l, cut c → c.use.counted = false) (hw : DumpsWf s) (P : DumpUse → Prop) :
    Grows P 0 s (l.foldl (fun s c => if cut c then s.ribDumpFree c else s) s) := by
  induction l generalizing s with
  | nil => exact Grows.refl P s
  | cons c l ih =>
    obtain ⟨hc, hrest⟩ := List.forall_mem_cons.mp hl
    obtain ⟨hcutc, hcutl⟩ := List.forall_mem_cons.mp hcut
    obtain ⟨hnin, hnd⟩ := List.nodup_cons.mp hnd
    rw [List.foldl_cons]
    by_cases hyes : cut c
    · rw [if_pos hyes]
      have hone := ribDumpFree_uncounted hw hc (hcutc hyes) P
      refine hone.trans (ih hnd (fun x hx => ?_) hcutl (hone.wf hw))
      exact mem_ribDumpFree (hrest x hx) fun haddr => hnin (haddr ▸ List.mem_map_of_mem hx)
    · rw [if_neg hyes]
      exact ih hnd hrest hcutl hw

/-- No flush walks over a RIB that is removed. -/
theorem ribFree_flushing (s : ReloadState) (id : ℕ) : Flushing s (s.ribFree id) := by
  intro hw hall
  have habort : Grows DumpUse.IsFlush 0 s (s.ribDumpAbort id) := by
    refine foldl_free_grows (fun c => c.id = id ∧ c.use.ribCall = true ∧ 0 < c.pos) hw.nodup
      (fun _ hc => hc) (fun c hc hcut => ?_) hw _
    by_contra hcounted
    obtain ⟨q, hq⟩ := hall c (List.mem_filter.mpr ⟨hc, (Bool.not_eq_false _).mp hcounted⟩)
    rw [hq] at hcut
    exact absurd hcut.2.1 Bool.false_ne_true
  unfold ReloadState.ribFree
  dsimp only
  split_ifs
  · exact ⟨0, habort⟩
  · exact ⟨0, habort.trans (Grows.setRib _ _ id none)⟩

theorem keepRib_flushing (nconf : NewConf) (force : Bool) (rid : ℕ) (rib : DumpRib)
    (a : ReloadState × ℕ) : Flushing a.1 (ReloadState.keepRib nconf force rid rib a).1 := by
  unfold ReloadState.keepRib
  split_ifs
  · exact (Grows.setRib _ a.1 rid _).flushing
  · exact (Grows.setRib _ a.1 rid _).flushing

theorem reloadRib_flushing (nconf : NewConf) (force : Bool) (a : ReloadState × ℕ) (rid : ℕ) :
    Flushing a.1 (ReloadState.reloadRib nconf force a rid).1 := by
  unfold ReloadState.reloadRib
  split
  · exact (Grows.refl _ a.1).flushing
  · next rib _ =>
    split
    · exact ribFree_flushing a.1 rid
    · dsimp only
      refine Flushing.trans ?_ (keepRib_flushing nconf force rid _ _)
      dsimp only
      split_ifs
      · exact Flushing.foldl id (reinitPeer_flushing rid) _ a.1
      · exact (Grows.refl _ a.1).flushing
    · exact keepRib_flushing nconf force rid rib a
    · exact (Grows.setRib _ a.1 rid _).flushing
    · exact (Grows.refl _ a.1).flushing

theorem reloadLoops_flushing (nconf : NewConf) (s : ReloadState) (force : Bool) :
    Flushing s (s.reloadLoops nconf force).1 :=
  (Flushing.foldl Prod.fst (reloadPeer_flushing nconf) s.peertable (s, 0)).trans
    (Flushing.foldl Prod.fst (reloadRib_flushing nconf force) _ _)

/-- The last reload is over. -/
theorem reload_over (h : ReloadInv keys s) (hover : s.reconfDone = s.reloads) :
    s.countedDumps = [] ∧ s.outStarts = s.reloads := by
  rcases h.phase with ⟨hnil, ho, -⟩ | ⟨-, -, -, hr⟩ | ⟨-, -, -, hr⟩
  · exact ⟨hnil, ho⟩
  · omega
  · omega

/-- The state after the loops of `rde_reload_done`. -/
structure Begun (t : ReloadState) : Prop where
  wf : DumpsWf t
  all : ∀ c ∈ t.countedDumps, c.pos = 0 ∧ c.use.isIn = true
  counter : t.softreconfig = t.countedDumps.length
  outStarts : t.outStarts + 1 = t.reloads
  reconfDone : t.reconfDone + 1 = t.reloads
  nconf : t.nconf = false

variable {t : ReloadState}

/-- The walk over the Adj-RIB-In starts. -/
theorem Begun.walk (h : Begun t) : ReloadInv keys
    (ReloadState.ribDumpNew
      { t with softreconfig := t.softreconfig + 1 } 0 .softreconfigIn false) := by
  have hcons : (ReloadState.ribDumpNew { t with softreconfig := t.softreconfig + 1 } 0
      .softreconfigIn false).countedDumps =
      { addr := t.nextAddr, id := 0, use := .softreconfigIn } :: t.countedDumps :=
    List.filter_cons_of_pos rfl
  obtain ⟨hnd, hfresh⟩ :=
    h.wf.cons (c := { addr := t.nextAddr, id := 0, use := .softreconfigIn }) rfl
  refine ⟨⟨hnd, hfresh⟩, fun c hc => ?_, ?_, ?_, fun hc => ?_⟩
  · rw [hcons] at hc
    rcases List.mem_cons.mp hc with rfl | hc
    · exact Nat.zero_le _
    · rw [(h.all c hc).1]
      exact Nat.zero_le _
  · rw [hcons, List.length_cons]
    show t.softreconfig + 1 = _
    rw [h.counter]
    push_cast
    rfl
  · refine Or.inr (Or.inl ⟨?_, fun c hc => ?_, h.outStarts, h.reconfDone⟩)
    · rw [hcons]
      exact List.cons_ne_nil _ _
    · rw [hcons] at hc
      rcases List.mem_cons.mp hc with rfl | hc
      · rfl
      · exact (h.all c hc).2
  · exact absurd (h.nconf.symm.trans hc) Bool.false_ne_true

/-- There are only flushes to wait for. -/
theorem Begun.flushes (h : Begun t) (hne : t.countedDumps ≠ []) : ReloadInv keys
    (ReloadState.rdeSoftreconfigInDone { t with softreconfig := t.softreconfig + 1 }) := by
  have hpos := List.length_pos_of_ne_nil hne
  have hcnt := h.counter
  rw [rdeSoftreconfigInDone_more (by show 1 < t.softreconfig + 1; omega)]
  refine ⟨⟨h.wf.nodup, h.wf.fresh⟩, fun c hc => ?_, ?_,
    Or.inr (Or.inl ⟨hne, fun c hc => (h.all c hc).2, h.outStarts, h.reconfDone⟩), fun hc => ?_⟩
  · rw [(h.all c hc).1]
    exact Nat.zero_le _
  · show t.softreconfig + 1 - 1 = (t.countedDumps.length : ℤ)
    omega
  · exact absurd (h.nconf.symm.trans hc) Bool.false_ne_true

/-- There is nothing to wait for: the outbound phase starts at once. -/
theorem Begun.none (h : Begun t) (hnil : t.countedDumps = []) : ReloadInv keys
    (ReloadState.rdeSoftreconfigInDone { t with softreconfig := t.softreconfig + 1 }) := by
  have hcnt := h.counter
  rw [hnil, List.length_nil] at hcnt
  obtain ⟨s₁, hg, heq⟩ := rdeSoftreconfigInDone_last
    (s := { t with softreconfig := t.softreconfig + 1 }) (by show t.softreconfig + 1 = 1; omega)
  obtain ⟨new, hdumps, -, hall, hcnt₁⟩ := hg.dumps
  have hnew : s₁.countedDumps = new := hdumps.trans (by
    show new ++ t.countedDumps = new
    rw [hnil, List.append_nil])
  have hw : DumpsWf s₁ := hg.wf ⟨h.wf.nodup, h.wf.fresh⟩
  have hreloads : s₁.reloads = t.reloads := hg.reloads
  have hstarts : s₁.outStarts = t.outStarts + 1 := hg.outStarts
  have hdone : s₁.reconfDone = t.reconfDone := hg.reconfDone
  have hcount := h.outStarts
  have hmsg := h.reconfDone
  rw [zero_add] at hcnt₁
  rw [heq]
  split_ifs with hzero
  · have hnone : new = [] := List.length_eq_zero_iff.mp (by omega)
    refine outbound_inv ⟨hw.nodup, hw.fresh⟩ hnew hall hcnt₁ ?_ ?_ (hg.nconf.trans h.nconf)
    · show s₁.outStarts = s₁.reloads
      omega
    · rw [if_pos hnone]
      show s₁.reconfDone + 1 + 0 = s₁.reloads
      omega
  · have hsome : new ≠ [] := fun hc => hzero (by rw [hcnt₁, hc]; rfl)
    refine outbound_inv hw hnew hall hcnt₁ ?_ ?_ (hg.nconf.trans h.nconf)
    · omega
    · rw [if_neg hsome]
      omega

/-- A reload begins when the last one is over. -/
theorem rdeReloadDone_inv (h : ReloadInv keys s) (hnconf : s.nconf = true) (nconf : NewConf) :
    ReloadInv keys (s.rdeReloadDone nconf) := by
  have hover := h.nconf hnconf
  obtain ⟨hidle, houts⟩ := reload_over h hover
  unfold ReloadState.rdeReloadDone
  dsimp only
  obtain ⟨n, hg⟩ := reloadLoops_flushing nconf
    { s with
      softreconfig := 0, filteredInLocrib := nconf.filteredInLocrib, nconf := false
      reloads := s.reloads + 1 }
    (decide (s.filteredInLocrib ≠ nconf.filteredInLocrib)) ⟨h.wf.nodup, h.wf.fresh⟩ (fun c hc => by
      have hnone : c ∈ s.countedDumps := hc
      rw [hidle] at hnone
      exact absurd hnone List.not_mem_nil)
  generalize ReloadState.reloadLoops nconf _ _ = a at hg
  obtain ⟨new, hdumps, -, hall, hcnt⟩ := hg.dumps
  have hnew : a.1.countedDumps = new := hdumps.trans (by
    show new ++ s.countedDumps = new
    rw [hidle, List.append_nil])
  have hreloads : a.1.reloads = s.reloads + 1 := hg.reloads
  have hstarts : a.1.outStarts = s.outStarts := hg.outStarts
  have hdone : a.1.reconfDone = s.reconfDone := hg.reconfDone
  have hbegun : Begun a.1 := by
    refine ⟨hg.wf ⟨h.wf.nodup, h.wf.fresh⟩, fun c hc => ?_, ?_, ?_, ?_, hg.nconf⟩
    · rw [hnew] at hc
      obtain ⟨hpos, q, hq⟩ := hall c hc
      exact ⟨hpos, hq ▸ rfl⟩
    · rw [hnew, hcnt, zero_add]
    · rw [hstarts, hreloads, houts]
    · rw [hdone, hreloads, hover]
  split_ifs with hreload
  · exact hbegun.walk
  · by_cases hnone : a.1.countedDumps = []
    · exact hbegun.none hnone
    · exact hbegun.flushes hnone

end Reload

/-! ## Steps -/

section Steps

variable {keys : ℕ} {s s' : ReloadState}

theorem pauseAt_addr (addr : Ptr) (k : ℕ) (x : DumpCtx) : (pauseAt addr k x).addr = x.addr := by
  unfold pauseAt
  split_ifs
  · rfl
  · rfl

theorem pauseAt_use (addr : Ptr) (k : ℕ) (x : DumpCtx) : (pauseAt addr k x).use = x.use := by
  unfold pauseAt
  split_ifs
  · rfl
  · rfl

/-- A dump that pauses later has a round less left. -/
theorem dumpRound_pause (h : ReloadInv keys s) {c : DumpCtx} (hc : c ∈ s.ribDumps) {k : ℕ}
    (hk : c.pos < k) (hkeys : k ≤ keys) :
    ReloadInv keys (s.pause c.addr k) ∧
      roundsLeft keys (s.pause c.addr k) + (if c.use.counted then 1 else 0) ≤
        roundsLeft keys s := by
  have haddrs : (s.ribDumps.map (pauseAt c.addr k)).map DumpCtx.addr =
      s.ribDumps.map DumpCtx.addr := by
    rw [List.map_map]
    exact List.map_congr_left fun x _ => pauseAt_addr c.addr k x
  have hcounted : (s.pause c.addr k).countedDumps = s.countedDumps.map (pauseAt c.addr k) := by
    unfold ReloadState.countedDumps ReloadState.pause
    rw [List.filter_map]
    congr 1
    exact List.filter_congr fun x _ => congrArg DumpUse.counted (pauseAt_use c.addr k x)
  have hmem : ∀ x ∈ s.countedDumps.map (pauseAt c.addr k), ∃ y ∈ s.countedDumps,
    pauseAt c.addr k y = x :=
    fun x hx => List.mem_map.mp hx
  -- the context is the only one at its address
  have hself : ∀ x ∈ s.countedDumps, x.addr = c.addr → x = c := fun x hx =>
    List.inj_on_of_nodup_map h.wf.nodup (List.mem_filter.mp hx).1 hc
  have hle : ∀ x ∈ s.countedDumps, keys + 1 - (pauseAt c.addr k x).pos ≤ keys + 1 - x.pos := by
    intro x hx
    unfold pauseAt
    split_ifs with haddr
    · obtain rfl := hself x hx haddr
      dsimp only
      omega
    · exact le_refl _
  refine ⟨⟨⟨haddrs ▸ h.wf.nodup, fun x hx => ?_⟩, fun x hx => ?_, ?_, ?_, h.nconf⟩, ?_⟩
  · obtain ⟨y, hy, rfl⟩ := List.mem_map.mp hx
    rw [pauseAt_addr]
    exact h.wf.fresh y hy
  · rw [hcounted] at hx
    obtain ⟨y, hy, rfl⟩ := hmem x hx
    unfold pauseAt
    split_ifs
    · exact hkeys
    · exact h.pos y hy
  · rw [hcounted, List.length_map]
    exact h.counter
  -- a dump that pauses stays in its phase
  · rw [hcounted]
    refine h.phase.imp (fun hi => ⟨by rw [hi.1, List.map_nil], hi.2⟩) (Or.imp ?_ ?_)
    · rintro ⟨hne, hall, hrest⟩
      refine ⟨fun hc => hne (List.map_eq_nil_iff.mp hc), fun x hx => ?_, hrest⟩
      obtain ⟨y, hy, rfl⟩ := hmem x hx
      rw [pauseAt_use]
      exact hall y hy
    · rintro ⟨hne, hall, hrest⟩
      refine ⟨fun hc => hne (List.map_eq_nil_iff.mp hc), fun x hx => ?_, hrest⟩
      obtain ⟨y, hy, rfl⟩ := hmem x hx
      rw [pauseAt_use]
      exact hall y hy
  · unfold roundsLeft
    rw [hcounted, List.map_map]
    show _ + (s.reloads - s.outStarts) * (2 * s.ribSize * (keys + 1)) + _ ≤ _
    by_cases huse : c.use.counted = true
    -- if it counts, one round less is left
    · have hlt := List.sum_lt_sum (fun x => keys + 1 - (pauseAt c.addr k x).pos)
        (fun x => keys + 1 - x.pos) hle ⟨c, List.mem_filter.mpr ⟨hc, huse⟩, by
          have hpos := h.pos c (List.mem_filter.mpr ⟨hc, huse⟩)
          unfold pauseAt
          rw [if_pos rfl]
          dsimp only
          omega⟩
      rw [if_pos huse]
      have : (s.countedDumps.map ((fun c => keys + 1 - c.pos) ∘ pauseAt c.addr k)).sum <
        (s.countedDumps.map fun c => keys + 1 - c.pos).sum := hlt
      omega
    · rw [if_neg huse]
      have : (s.countedDumps.map ((fun c => keys + 1 - c.pos) ∘ pauseAt c.addr k)).sum ≤
        (s.countedDumps.map fun c => keys + 1 - c.pos).sum := List.sum_le_sum hle
      omega

/-- A step that does not start a reload leaves no more rounds than there were. -/
structure Goes (keys : ℕ) (s s' : ReloadState) : Prop where
  inv : ReloadInv keys s'
  less : roundsLeft keys s' + s'.rounds ≤ roundsLeft keys s + s.rounds

theorem Ended.goes (h : Ended keys 0 s s') : Goes keys s s' :=
  ⟨h.inv, Nat.add_le_add h.less h.rounds.le⟩

/-- The counter of rounds. -/
theorem ReloadInv.addRounds (h : ReloadInv keys s) (n : ℕ) :
    ReloadInv keys { s with rounds := s.rounds + n } :=
  ⟨⟨h.wf.nodup, h.wf.fresh⟩, h.pos, h.counter, h.phase, h.nconf⟩

/-- A round of one dump is paid for by the rounds that were left. -/
theorem dumpRound_goes (h : ReloadInv keys s) {addr : Ptr} {pause : Option ℕ}
    (hstep : dumpRound keys s addr pause = some s') : Goes keys s s' := by
  unfold dumpRound at hstep
  split at hstep
  · exact nomatch hstep
  · next c hfind =>
    have hc := List.mem_of_find?_eq_some hfind
    obtain rfl : c.addr = addr := by simpa using List.find?_some hfind
    by_cases hgone : c.use.ribCall = true ∧ (s.ribs c.id).isNone
    · rw [if_pos hgone] at hstep
      obtain rfl := Option.some.inj hstep
      exact ((Grows.exit _ s).ended h).goes
    · rw [if_neg hgone] at hstep
      -- the round is counted, and one less is left
      obtain ⟨n, hn, hone⟩ : ∃ n, (if c.use.counted = true then 1 else 0) = n ∧
          (c.use.counted = true → n = 1) ∧ (c.use.counted = false → n = 0) := by
        cases c.use.counted
        · exact ⟨0, rfl, fun hc => absurd hc Bool.false_ne_true, fun _ => rfl⟩
        · exact ⟨1, rfl, fun _ => rfl, fun hc => absurd hc Bool.false_ne_true.symm⟩
      rw [hn] at hstep
      have hadd := h.addRounds n
      cases pause with
      | none =>
        obtain rfl := Option.some.inj hstep
        have hend := ribDumpFree_inv hadd hc
        refine ⟨hend.inv, ?_⟩
        have hless := hend.less
        change _ ≤ roundsLeft keys s at hless
        rw [hend.rounds]
        show _ + (s.rounds + n) ≤ _
        by_cases huse : c.use.counted = true
        · have hpos := h.pos c (List.mem_filter.mpr ⟨hc, huse⟩)
          rw [if_pos huse] at hless
          have := hone.1 huse
          omega
        · have := hone.2 (Bool.eq_false_iff.mpr huse)
          omega
      | some k =>
        dsimp only at hstep
        split_ifs at hstep with hk
        obtain rfl := Option.some.inj hstep
        obtain ⟨hinv, hless⟩ := dumpRound_pause hadd hc hk.1 hk.2
        refine ⟨hinv, ?_⟩
        change _ ≤ roundsLeft keys s at hless
        rw [hn] at hless
        show _ + (s.rounds + n) ≤ _
        omega

theorem onPeer_goes (h : ReloadInv keys s) (id : PeerId) {f : Ptr → ReloadState}
    (hf : ∀ q, Ended keys 0 s (f q)) : Goes keys s (onPeer s id f) := by
  unfold onPeer
  split
  · exact (hf _).goes
  · exact (Ended.refl h).goes

theorem reconfConf_goes (h : ReloadInv keys s) (hover : s.reconfDone = s.reloads) :
    Goes keys s s.reconfConf :=
  ⟨⟨⟨h.wf.nodup, h.wf.fresh⟩, h.pos, h.counter, h.phase, fun _ => hover⟩, le_refl _⟩

/-- While a configuration is received there is nothing to wait for. -/
theorem reconfRib_goes (h : ReloadInv keys s) (hnconf : s.nconf = true) (name : String)
    (rtableid : ℕ)
    (flags : RibFlags) : Goes keys s (s.reconfRib name rtableid flags) := by
  obtain ⟨hnil, houts⟩ := reload_over h (h.nconf hnconf)
  have hset : ∀ id rib, Goes keys s (s.setRib id rib) := fun id rib =>
    ((Grows.setRib _ s id rib).ended h).goes
  -- the array of RIBs may grow
  have hsize : ∀ n, Goes keys s { s with ribSize := n } := fun n => by
    refine ⟨⟨⟨h.wf.nodup, h.wf.fresh⟩, h.pos, h.counter, h.phase, h.nconf⟩, ?_⟩
    unfold roundsLeft
    show (s.countedDumps.map _).sum + (s.reloads - s.outStarts) * _ + s.rounds ≤ _
    rw [houts, Nat.sub_self, Nat.zero_mul, Nat.zero_mul]
  unfold ReloadState.reconfRib
  split
  · unfold ReloadState.ribNew
    dsimp only
    split_ifs
    · have hgrow := hsize
        (((List.range s.ribSize).find? fun id => (s.ribs id).isNone).getD s.ribSize + 8)
      have hrib := (Grows.setRib (fun _ => False) _ (((List.range s.ribSize).find? fun id =>
        (s.ribs id).isNone).getD s.ribSize) (some
        { name := name, rtableid := rtableid, flags := flags, state := .reinit })).ended hgrow.inv
      exact ⟨hrib.inv, hrib.goes.less.trans hgrow.less⟩
    · exact hset _ _
  · split_ifs
    · exact hset _ _
    · exact hset _ _

/-- The event `IMSG_RECONF_DONE`. -/
def ReloadEvent.IsReload : ReloadEvent → Prop
  | .reconfDone _ => True
  | _ => False

/-- A step that does not start a reload. -/
theorem reloadStep_goes {e : ReloadEvent} (h : ReloadInv keys s) (he : ¬ e.IsReload)
    (hstep : reloadStep keys s e = some s') : Goes keys s s' := by
  unfold reloadStep at hstep
  split_ifs at hstep
  cases e with
  | sessionAdd q id conf =>
    simp only [reloadHandle] at hstep
    split_ifs at hstep
    obtain rfl := Option.some.inj hstep
    exact (peerAdd_inv h q id conf).goes
  | sessionUp id sup =>
    obtain rfl := Option.some.inj hstep
    exact onPeer_goes h id fun q => peerUp_inv h q sup
  | sessionDown id =>
    obtain rfl := Option.some.inj hstep
    exact onPeer_goes h id (peerDown_inv h)
  | sessionStale id =>
    obtain rfl := Option.some.inj hstep
    exact onPeer_goes h id (peerDown_inv h)
  | sessionDelete id =>
    obtain rfl := Option.some.inj hstep
    exact onPeer_goes h id (peerDelete_inv h)
  | refresh id aid =>
    obtain rfl := Option.some.inj hstep
    exact onPeer_goes h id fun q => (peerBlast_grows _ s q aid).ended h
  | updateErr id =>
    obtain rfl := Option.some.inj hstep
    exact onPeer_goes h id fun q => (Grows.setPeer _ s q _).ended h
  | dumpNew id ribCall arg pos =>
    obtain rfl := Option.some.inj hstep
    exact ((Grows.uncounted _ rfl rfl).ended h).goes
  | dumpTerminate arg =>
    obtain rfl := Option.some.inj hstep
    exact (ribDumpTerminate_inv h _).goes
  | reconfConf =>
    simp only [reloadHandle] at hstep
    split_ifs at hstep with hover
    obtain rfl := Option.some.inj hstep
    exact reconfConf_goes h (not_not.mp (not_or.mp hover).2)
  | reconfRib name rtableid flags =>
    simp only [reloadHandle] at hstep
    split_ifs at hstep with hnconf
    obtain rfl := Option.some.inj hstep
    exact reconfRib_goes h hnconf name rtableid flags
  | reconfDone nconf => exact absurd trivial he
  | round addr pause => exact dumpRound_goes h hstep

theorem reloadStep_inv {e : ReloadEvent} (h : ReloadInv keys s)
    (hstep : reloadStep keys s e = some s') : ReloadInv keys s' := by
  by_cases he : e.IsReload
  · cases e with
    | reconfDone nconf =>
      simp only [reloadStep, reloadHandle] at hstep
      split_ifs at hstep with _ hnconf
      obtain rfl := Option.some.inj hstep
      exact rdeReloadDone_inv h hnconf nconf
    | _ => exact absurd he id
  · exact (reloadStep_goes h he hstep).inv

theorem reloadInit_inv (keys : ℕ) (self : Ptr) : ReloadInv keys (reloadInit self) :=
  ⟨⟨List.nodup_nil, fun _ hc => absurd hc List.not_mem_nil⟩, fun _ hc => absurd hc List.not_mem_nil,
    rfl, Or.inl ⟨rfl, rfl, rfl⟩, fun hc => absurd hc Bool.false_ne_true⟩

/-- Rounds of counted dumps until the next reload starts. -/
theorem rounds_bounded {es : List ReloadEvent} (h : ReloadInv keys s)
    (hrun : Run (reloadStep keys) (fun _ e => ¬ e.IsReload) s es s') :
    roundsLeft keys s' + s'.rounds ≤ roundsLeft keys s + s.rounds := by
  induction hrun with
  | nil s => exact le_refl _
  | cons he hstep _ ih =>
    have hgo := reloadStep_goes h he hstep
    exact (ih hgo.inv).trans hgo.less

end Steps

/-! ## Main result -/

/-- For each reload the outbound phase has started once if no inbound dump is left, and the
    parent was told once if no counted dump is left. -/
structure EndsOnce (s : ReloadState) : Prop where
  counter : 0 ≤ s.softreconfig
  outbound : s.outStarts = s.reloads ∨ s.outStarts + 1 = s.reloads
  inbound : s.outStarts = s.reloads ↔ ∀ c ∈ s.ribDumps, c.use.isIn = false
  reported : s.reconfDone = s.reloads ∨ s.reconfDone + 1 = s.reloads
  ended : s.reconfDone = s.reloads ↔ ∀ c ∈ s.ribDumps, c.use.counted = false

section Ends

variable {keys : ℕ} {s : ReloadState}

theorem forall_uncounted (s : ReloadState) :
    s.countedDumps = [] ↔ ∀ c ∈ s.ribDumps, c.use.counted = false := by
  unfold ReloadState.countedDumps
  rw [List.filter_eq_nil_iff]
  exact forall₂_congr fun c _ => Bool.eq_false_iff.symm

/-- In a state of the invariant the reload ends once. -/
theorem ReloadInv.endsOnce (h : ReloadInv keys s) : EndsOnce s := by
  have hcnt : 0 ≤ s.softreconfig := by
    rw [h.counter]
    exact Int.natCast_nonneg _
  have hunc := forall_uncounted s
  have hin : ∀ c ∈ s.ribDumps, c.use.counted = false → c.use.isIn = false := fun c _ hc =>
    (Bool.or_eq_false_iff.mp hc).1
  rcases h.phase with ⟨hnil, ho, hr⟩ | ⟨hne, hall, ho, hr⟩ | ⟨hne, hall, ho, hr⟩
  · have hnone := hunc.mp hnil
    exact ⟨hcnt, Or.inl ho, iff_of_true ho fun c hc => hin c hc (hnone c hc), Or.inl hr,
      iff_of_true hr hnone⟩
  · refine ⟨hcnt, Or.inr ho, iff_of_false (by omega) fun hc => ?_, Or.inr hr,
      iff_of_false (by omega) fun hc => hne (hunc.mpr hc)⟩
    obtain ⟨c, hmem⟩ := List.exists_mem_of_ne_nil _ hne
    exact absurd (hall c hmem) (by rw [hc c (List.mem_filter.mp hmem).1]; exact Bool.false_ne_true)
  · refine ⟨hcnt, Or.inl ho, iff_of_true ho fun c hc => ?_, Or.inr hr,
      iff_of_false (by omega) fun hc => hne (hunc.mpr hc)⟩
    by_cases hcounted : c.use.counted = true
    · exact isIn_of_isOut (hall c (List.mem_filter.mpr ⟨hc, hcounted⟩))
    · exact hin c hc (Bool.eq_false_iff.mpr hcounted)

/-- While a reload is not over, a counted dump is there to go on with. -/
theorem exists_round (h : ReloadInv keys s) (hrun : s.exited = false)
    (hnot : s.reconfDone ≠ s.reloads) :
    ∃ c ∈ s.ribDumps, c.use.counted = true ∧ (reloadStep keys s (.round c.addr none)).isSome := by
  have hne : s.countedDumps ≠ [] := by
    rcases h.phase with ⟨-, -, hr⟩ | ⟨hne, -⟩ | ⟨hne, -⟩
    · exact absurd hr hnot
    · exact hne
    · exact hne
  obtain ⟨c, hmem⟩ := List.exists_mem_of_ne_nil _ hne
  obtain ⟨hc, hcounted⟩ := List.mem_filter.mp hmem
  refine ⟨c, hc, hcounted, ?_⟩
  obtain ⟨x, hx⟩ := Option.isSome_iff_exists.mp
    (List.find?_isSome.mpr ⟨c, hc, decide_eq_true rfl⟩ :
      (s.ribDumps.find? fun x => x.addr = c.addr).isSome)
  simp only [reloadStep, reloadHandle, hrun, dumpRound, hx]
  split_ifs
  all_goals first | rfl | contradiction

/-- Every reload ends exactly once: the counter is not negative, the outbound phase starts once
    and after the inbound dumps, and the parent is told once and after all counted dumps. As long
    as it is not told, there is a counted dump to go on with, and the rounds of these dumps are
    bounded, so that they end unless the RDE exits. -/
theorem reload_ends {self : Ptr} {es : List ReloadEvent}
    (h : Run (reloadStep keys) (fun _ _ => True) (reloadInit self) es s) :
    EndsOnce s ∧
    (s.exited = false → s.reconfDone ≠ s.reloads →
      ∃ c ∈ s.ribDumps, c.use.counted = true ∧ (reloadStep keys s (.round c.addr none)).isSome) ∧
    ∀ fs s', Run (reloadStep keys) (fun _ e => ¬ e.IsReload) s fs s' →
      s'.rounds ≤ s.rounds + roundsLeft keys s := by
  have hinv : ReloadInv keys s := h.invariant (P := ReloadInv keys)
    (fun _ _ _ hs _ hstep => reloadStep_inv hs hstep) (reloadInit_inv keys self)
  refine ⟨hinv.endsOnce, exists_round hinv, fun fs s' hrun => ?_⟩
  have hbound := rounds_bounded hinv hrun
  omega

end Ends

/-- The configuration of a peer that gets the default route only. -/
def defaultRouteConf : DumpConf := { exportType := .defaultRoute }

/-- A configuration without changes of filters. -/
def sameFilters : NewConf where
  filteredInLocrib := false
  overLimit := fun _ => false
  outFilter := fun _ => false
  filterEqual := fun _ => true

/-- The first configuration, and a peer that comes up. -/
def startEvents : List ReloadEvent :=
  [.reconfConf, .reconfRib "Adj-RIB-In" 0 { noevaluate := true, nofib := true },
    .reconfRib "Loc-RIB" 0 {}, .reconfDone sameFilters, .round 0 none,
    .sessionAdd 10 2 defaultRouteConf,
    .sessionUp 2 { capa := { mp := fun aid => aid = .inet } }]

/-- The peer is to get all routes from now on: its Adj-RIB-Out is flushed. -/
def exportEvents : List ReloadEvent :=
  [.sessionAdd 11 2 {}, .reconfConf, .reconfRib "Adj-RIB-In" 0
    { noevaluate := true, nofib := true },
    .reconfRib "Loc-RIB" 0 {}, .reconfDone sameFilters, .round 1 none]

theorem reload_ends_sample : ∃ s,
    Run (reloadStep 10) (fun _ _ => True) (reloadInit 0) (startEvents ++ exportEvents) s ∧
      EndsOnce s := by
  obtain ⟨s, hrun, -⟩ := exists_run (reloadStep 10) (fun _ _ => True) (reloadInit 0)
    (startEvents ++ exportEvents) (fun s => s.exited = false) (by decide +kernel)
  exact ⟨s, hrun, (reload_ends hrun).1⟩

/-- The reload is reported while the table is still being dumped to the peer. -/
theorem reload_reported_early : ∃ s,
    Run (reloadStep 10) (fun _ _ => True) (reloadInit 0) (startEvents ++ exportEvents) s ∧
      s.reloads = 2 ∧ s.reconfDone = s.reloads ∧ ∃ c ∈ s.ribDumps, c.outbound = true :=
  exists_run (reloadStep 10) (fun _ _ => True) (reloadInit 0) (startEvents ++ exportEvents)
    (fun s => s.reloads = 2 ∧ s.reconfDone = s.reloads ∧ ∃ c ∈ s.ribDumps, c.outbound = true)
    (by decide +kernel)

end Bgpd.Rde.ReloadEnd
