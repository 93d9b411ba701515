import Bgpd.Session.Engine
import Bgpd.Session.TimerRuns

/-!
# What a Reload Does to Each Peer

`merge_peers` walks over all peers and changes several of them for one: a template takes its
clones along. What it does to one peer is put together from what every step does to it. From this
follows when each peer is accounted for after a reload.

## Main definitions

- `mergeOne`: what the loop body for one peer does to another
- `Carries`: a clone has the settings of its template
- `Accounted`: new, kept, a clone with the settings of its template, or to be removed
- `Reaches`: the changes of the template are those that a clone gets

## Main results

- `mergePeers_peers`: the peers after `merge_peers`
- `carries_iff`: when a clone has the settings of its template after a reload
- `merge_accounts`: every peer is accounted for iff the templates of all clones are kept and their
  settings reach the clones
-/

namespace Bgpd.Session

open Rde (BgpdAddr)

variable {nc : BgpdConfig} {nps old l : List Peer} {e : Engine} {p q t : Peer}

/-! ## The loop over the peers -/

/-- What the loop body of `merge_peers` for `p` does to the peer `q`. -/
def mergeOne (nc : BgpdConfig) (nps : List Peer) (p q : Peer) : Peer :=
  if p.template.isSome then q
  else match nps.find? (·.conf.id = p.conf.id) with
    | none => if q.addr = p.addr then { q with reconfAction := .delete } else q
    | some np =>
      let q := if q.addr = p.addr
        then (Cur.mergePeer nc np.conf np.authConf { peer := q }).peer else q
      if np.conf.template ∧ q.template = some p.addr then
        (Cur.mergeClone nc (Cur.applyDefaults nc np.conf) { peer := q }).peer
      else q

/-- Merging one new peer treats each old peer for itself. -/
theorem mergePeer_peers (nc : BgpdConfig) (nps : List Peer) (e : Engine) (p : Peer) :
    (Engine.mergePeer nc nps e p).peers = e.peers.map (mergeOne nc nps p) := by
  rw [Engine.mergePeer]
  by_cases htemplate : p.template.isSome = true
  · rw [if_pos htemplate]
    refine (List.map_id _).symm.trans (List.map_congr_left fun q _ => ?_)
    rw [mergeOne, if_pos htemplate]
    rfl
  rw [if_neg htemplate]
  cases hfind : nps.find? (·.conf.id = p.conf.id) with
  | none =>
    refine List.map_congr_left fun q _ => ?_
    rw [mergeOne, if_neg htemplate, hfind]
    simp
  | some np =>
    dsimp only
    split_ifs with hnp
    · rw [Engine.atPeers, Engine.atPeers]
      dsimp only
      rw [List.map_map]
      refine List.map_congr_left fun q _ => ?_
      rw [mergeOne, if_neg htemplate, hfind]
      simp [hnp]
    · refine List.map_congr_left fun q _ => ?_
      rw [mergeOne, if_neg htemplate, hfind]
      simp [hnp]

/-- Steps that act on each element by itself, as one step on each element. -/
theorem foldl_map_map {α β γ : Type*} {step : γ → β → γ} {get : γ → List α} {f : β → α → α}
    (hstep : ∀ s b, get (step s b) = (get s).map (f b)) (l : List β) (s : γ) :
    get (l.foldl step s) = (get s).map fun a => l.foldl (fun a b => f b a) a := by
  induction l generalizing s with
  | nil => exact (List.map_id _).symm
  | cons b l ih =>
    rw [List.foldl_cons, ih, hstep, List.map_map]
    rfl

/-- A loop in which only one element acts. -/
theorem foldl_single {α β : Type*} {f : β → α → β} {a : α} {l : List α} {b : β} (inv : β → Prop)
    (hl : l.Nodup) (ha : a ∈ l) (hb : inv b) (hfa : inv (f b a))
    (hf : ∀ b x, inv b → x ∈ l → x ≠ a → f b x = b) : l.foldl f b = f b a := by
  induction l generalizing b with
  | nil => cases ha
  | cons x l ih =>
    have hnodup := List.nodup_cons.mp hl
    rw [List.foldl_cons]
    by_cases hx : x = a
    · subst hx
      have hrest : ∀ (k : List α) (b : β), (∀ y ∈ k, y ∈ l) → inv b → k.foldl f b = b := by
        intro k
        induction k with
        | nil => exact fun _ _ _ => rfl
        | cons y k ihk =>
          intro b hk hb
          have hy := hk y List.mem_cons_self
          rw [List.foldl_cons, hf b y hb (List.mem_cons_of_mem _ hy) fun h => hnodup.1 (h ▸ hy)]
          exact ihk b (fun z hz => hk z (List.mem_cons_of_mem _ hz)) hb
      exact hrest l _ (fun _ h => h) hfa
    · rw [hf b x hb List.mem_cons_self hx]
      exact ih hnodup.2 ((List.mem_cons.mp ha).resolve_left fun h => hx h.symm) hb hfa
        fun b y hb hy => hf b y hb (List.mem_cons_of_mem _ hy)

/-- A loop in which nothing acts. -/
theorem foldl_none {α β : Type*} {f : β → α → β} {l : List α} {b : β}
    (hf : ∀ x ∈ l, f b x = b) : l.foldl f b = b := by
  induction l with
  | nil => rfl
  | cons x l ih =>
    rw [List.foldl_cons, hf x List.mem_cons_self]
    exact ih fun y hy => hf y (List.mem_cons_of_mem _ hy)

/-- What `merge_peers` makes of a peer. -/
def mergeAll (nc : BgpdConfig) (nps old : List Peer) (q : Peer) : Peer :=
  old.foldl (fun q p => mergeOne nc nps p q) q

theorem mem_insertPeer : q ∈ insertPeer p l ↔ q = p ∨ q ∈ l := by
  induction l with
  | nil => simp [insertPeer]
  | cons x l ih =>
    rw [insertPeer]
    split_ifs
    · exact List.mem_cons
    · rw [List.mem_cons, ih, List.mem_cons]
      tauto

theorem mem_insertPeers {new : List Peer} :
    q ∈ new.foldl (fun l np => insertPeer np l) l ↔ q ∈ new ∨ q ∈ l := by
  induction new generalizing l with
  | nil => simp
  | cons np new ih =>
    rw [List.foldl_cons, ih, mem_insertPeer, List.mem_cons]
    tauto

/-- The peers after `merge_peers`. -/
theorem mergePeers_peers : q ∈ (e.mergePeers nc nps).peers ↔
    q ∈ Engine.newPeers e.peers nps ∨ ∃ p ∈ e.peers, mergeAll nc nps e.peers p = q := by
  change q ∈ (Engine.newPeers e.peers nps).foldl (fun l np => insertPeer np l)
    (e.peers.foldl (Engine.mergePeer nc nps) e).peers ↔ _
  have hfold : (e.peers.foldl (Engine.mergePeer nc nps) e).peers =
      e.peers.map (mergeAll nc nps e.peers) := foldl_map_map (mergePeer_peers nc nps) e.peers e
  rw [mem_insertPeers, hfold, List.mem_map]

/-! ## One peer -/

/-- The fields of the session, and those that tell peers apart. -/
structure SameSession (p p' : Peer) : Prop where
  addr : p'.addr = p.addr
  template : p'.template = p.template
  state : p'.state = p.state
  prevState : p'.prevState = p.prevState
  fd : p'.fd = p.fd
  timers : p'.timers = p.timers
  capa : p'.capa = p.capa
  holdtime : p'.holdtime = p.holdtime
  idleHoldTime : p'.idleHoldTime = p.idleHoldTime
  rdesession : p'.rdesession = p.rdesession

/-- A peer of the new configuration gets its settings and keeps its session. -/
theorem mergePeer_spec (conf : BgpdConfig) (np : PeerConf) (auth : AuthConf) (q : Peer) :
    SameSession q (Cur.mergePeer conf np auth { peer := q }).peer ∧
      (Cur.mergePeer conf np auth { peer := q }).peer.conf = Cur.applyDefaults conf np ∧
      (Cur.mergePeer conf np auth { peer := q }).peer.authConf = auth ∧
      (Cur.mergePeer conf np auth { peer := q }).peer.localBgpid = conf.bgpid ∧
      (Cur.mergePeer conf np auth { peer := q }).peer.reconfAction = .keep := by
  rw [Cur.mergePeer]
  split_ifs <;>
    exact ⟨⟨rfl, rfl, rfl, rfl, rfl, rfl, rfl, rfl, rfl, rfl⟩, rfl, rfl, rfl, rfl⟩

/-- A clone gets the settings that `session_template_clone` makes for it and keeps its session and
    its authentication. -/
theorem mergeClone_spec (conf : BgpdConfig) (template : PeerConf) (q : Peer) :
    SameSession q (Cur.mergeClone conf template { peer := q }).peer ∧
      (Cur.mergeClone conf template { peer := q }).peer.conf =
        Cur.sessionTemplateClone template q.conf.remoteAddr q.conf.id q.conf.remoteAs ∧
      (Cur.mergeClone conf template { peer := q }).peer.authConf = q.authConf ∧
      (Cur.mergeClone conf template { peer := q }).peer.localBgpid = conf.bgpid ∧
      (Cur.mergeClone conf template { peer := q }).peer.reconfAction = q.reconfAction := by
  rw [Cur.mergeClone]
  split_ifs <;>
    exact ⟨⟨rfl, rfl, rfl, rfl, rfl, rfl, rfl, rfl, rfl, rfl⟩, rfl, rfl, rfl, rfl⟩

/-! ## The settings of a clone -/

/-- The clone `q` of the template `t` has become `p` and has the settings of its template. What
    tells clones apart stays. A template without an AS number takes any neighbor: the clone keeps
    the number it has, and the kind of the session follows from that. A session with a neighbor in
    the local AS need not enforce the AS number. -/
structure Carries (t q p : Peer) : Prop where
  id : p.conf.id = q.conf.id
  remoteAddr : p.conf.remoteAddr = q.conf.remoteAddr
  template : p.conf.template = false
  masklen : q.conf.remoteAddr.aid = some .inet → p.conf.remoteMasklen = 32
  masklen6 : q.conf.remoteAddr.aid = some .inet6 → p.conf.remoteMasklen = 128
  auth : p.authConf = t.authConf
  bgpid : p.localBgpid = t.localBgpid
  remoteAs : p.conf.remoteAs = if t.conf.remoteAs = 0 then q.conf.remoteAs else t.conf.remoteAs
  ebgp : p.conf.ebgp = if t.conf.remoteAs = 0 ∧ p.conf.remoteAs ≠ 0
    then decide (p.conf.remoteAs ≠ t.conf.localAs) else t.conf.ebgp
  enforceAs : p.conf.enforceAs = t.conf.enforceAs ∨
    p.conf.ebgp = false ∧ p.conf.enforceAs = .off
  /-- All other settings are those of the template. -/
  rest : p.conf = { t.conf with
    id := p.conf.id
    remoteAddr := p.conf.remoteAddr
    remoteMasklen := p.conf.remoteMasklen
    template := p.conf.template
    remoteAs := p.conf.remoteAs
    ebgp := p.conf.ebgp
    enforceAs := p.conf.enforceAs }

/-- The settings of the template `np` of the new configuration reach the clone `q`: the
    authentication is the same as before. If the template names an AS number and the clone has one,
    it is the same as before, and the template takes the session for what the local AS makes of
    it. -/
structure Reaches (np q : Peer) : Prop where
  auth : q.authConf = np.authConf
  remoteAs : np.conf.remoteAs ≠ 0 → q.conf.remoteAs ≠ 0 → q.conf.remoteAs = np.conf.remoteAs
  ebgp : np.conf.remoteAs ≠ 0 → q.conf.remoteAs ≠ 0 →
    np.conf.ebgp = decide (np.conf.remoteAs ≠ np.conf.localAs)

section TemplateClone

variable (template : PeerConf) (a : BgpdAddr) (id as : ℕ)

theorem sessionTemplateClone_template :
    (Cur.sessionTemplateClone template a id as).template = false := by
  rw [Cur.sessionTemplateClone]
  split_ifs <;> split <;> rfl

theorem sessionTemplateClone_id : (Cur.sessionTemplateClone template a id as).id = id := by
  rw [Cur.sessionTemplateClone]
  split_ifs <;> split <;> rfl

theorem sessionTemplateClone_remoteAddr :
    (Cur.sessionTemplateClone template a id as).remoteAddr = a := by
  rw [Cur.sessionTemplateClone]
  split_ifs <;> split <;> rfl

theorem sessionTemplateClone_masklen :
    (a.aid = some .inet → (Cur.sessionTemplateClone template a id as).remoteMasklen = 32) ∧
      (a.aid = some .inet6 →
        (Cur.sessionTemplateClone template a id as).remoteMasklen = 128) := by
  rw [Cur.sessionTemplateClone]
  constructor
  · intro haid
    rw [haid]
  · intro haid
    rw [haid]

theorem sessionTemplateClone_remoteAs : (Cur.sessionTemplateClone template a id as).remoteAs =
    if as = 0 then template.remoteAs else as := by
  rw [Cur.sessionTemplateClone]
  split_ifs <;> split <;> simp_all

theorem sessionTemplateClone_ebgp : (Cur.sessionTemplateClone template a id as).ebgp =
    if as = 0 then template.ebgp else decide (as ≠ template.localAs) := by
  rw [Cur.sessionTemplateClone]
  split_ifs <;> split <;> simp_all

theorem sessionTemplateClone_enforceAs : (Cur.sessionTemplateClone template a id as).enforceAs =
    if as ≠ 0 ∧ as = template.localAs then .off else template.enforceAs := by
  rw [Cur.sessionTemplateClone]
  split_ifs <;> split <;> simp_all

theorem sessionTemplateClone_rest : Cur.sessionTemplateClone template a id as = { template with
    id := (Cur.sessionTemplateClone template a id as).id
    remoteAddr := (Cur.sessionTemplateClone template a id as).remoteAddr
    remoteMasklen := (Cur.sessionTemplateClone template a id as).remoteMasklen
    template := (Cur.sessionTemplateClone template a id as).template
    remoteAs := (Cur.sessionTemplateClone template a id as).remoteAs
    ebgp := (Cur.sessionTemplateClone template a id as).ebgp
    enforceAs := (Cur.sessionTemplateClone template a id as).enforceAs } := by
  rw [Cur.sessionTemplateClone]
  split_ifs <;> split <;> rfl

end TemplateClone

/-- A clone has the settings of its template after a reload exactly if they reach it. -/
theorem carries_iff (np t q : Peer) :
    Carries (Cur.mergePeer nc np.conf np.authConf { peer := t }).peer q
      (Cur.mergeClone nc (Cur.applyDefaults nc np.conf) { peer := q }).peer ↔ Reaches np q := by
  obtain ⟨-, htconf, htauth, htbgpid, -⟩ := mergePeer_spec nc np.conf np.authConf t
  obtain ⟨-, hconf, hauth, hbgpid, -⟩ :=
    mergeClone_spec nc (Cur.applyDefaults nc np.conf) q
  generalize (Cur.mergePeer nc np.conf np.authConf { peer := t }).peer = t' at *
  generalize (Cur.mergeClone nc (Cur.applyDefaults nc np.conf) { peer := q }).peer = p at *
  have has : t'.conf.remoteAs = np.conf.remoteAs := by rw [htconf]; rfl
  have hlocal : t'.conf.localAs = np.conf.localAs := by rw [htconf]; rfl
  have hebgp : t'.conf.ebgp = np.conf.ebgp := by rw [htconf]; rfl
  rw [← htconf] at hconf
  have hpas := sessionTemplateClone_remoteAs t'.conf q.conf.remoteAddr q.conf.id q.conf.remoteAs
  have hpebgp := sessionTemplateClone_ebgp t'.conf q.conf.remoteAddr q.conf.id q.conf.remoteAs
  have hpenforce :=
    sessionTemplateClone_enforceAs t'.conf q.conf.remoteAddr q.conf.id q.conf.remoteAs
  rw [← hconf] at hpas hpebgp hpenforce
  constructor
  -- carried settings agree in what a clone takes from its template
  · intro h
    refine ⟨hauth.symm.trans (h.auth.trans htauth), fun hnp hq => ?_, fun hnp hq => ?_⟩
    · have hcarried := h.remoteAs
      rw [if_neg (by rwa [has]), hpas, if_neg hq] at hcarried
      exact hcarried.trans has
    · have hcarried := h.ebgp
      have hsame := h.remoteAs
      rw [if_neg (by rwa [has]), hpas, if_neg hq] at hsame
      rw [if_neg (fun hzero => hnp (has ▸ hzero.1)), hpebgp, if_neg hq, hsame] at hcarried
      rw [← hebgp, ← hcarried, has, hlocal]
  -- the clone is made from the template, field by field
  · intro h
    refine ⟨?_, ?_, ?_, ?_, ?_, hauth.trans (h.auth.trans htauth.symm), hbgpid.trans htbgpid.symm,
      ?_, ?_, ?_, ?_⟩
    · rw [hconf, sessionTemplateClone_id]
    · rw [hconf, sessionTemplateClone_remoteAddr]
    · rw [hconf, sessionTemplateClone_template]
    · rw [hconf]
      exact (sessionTemplateClone_masklen _ _ _ _).1
    · rw [hconf]
      exact (sessionTemplateClone_masklen _ _ _ _).2
    · rw [hpas]
      split_ifs with hq hnp hnp
      · rw [hq, hnp]
      · rfl
      · rfl
      · rw [has] at hnp ⊢
        exact h.remoteAs hnp hq
    · rw [hpebgp, hpas]
      by_cases hq : q.conf.remoteAs = 0
      · rw [if_pos hq, if_pos hq, if_neg]
        exact fun hzero => hzero.2 hzero.1
      · rw [if_neg hq, if_neg hq]
        split_ifs with hzero
        · rfl
        · have hnp : np.conf.remoteAs ≠ 0 := fun hz => hzero ⟨has.trans hz, hq⟩
          rw [hebgp, h.ebgp hnp hq, h.remoteAs hnp hq, hlocal]
    · rw [hpenforce, hpebgp]
      split_ifs with hibgp hq hq
      · exact absurd hq hibgp.1
      · exact Or.inr ⟨by simpa using hibgp.2, rfl⟩
      · exact Or.inl rfl
      · exact Or.inl rfl
    · rw [hconf]
      exact sessionTemplateClone_rest _ _ _ _

/-! ## The tree -/

/-- The peers of a tree and of a new configuration: addresses tell peers apart, clones are no
    templates, and the new peers were just allocated. -/
structure TreeOk (old nps : List Peer) : Prop where
  addrs : (old.map Peer.addr).Nodup
  clones : ∀ q ∈ old, q.template.isSome = true → q.conf.template = false
  new : ∀ np ∈ nps, np.template = none ∧ np.reconfAction = .reinit
  fresh : ∀ np ∈ nps, ∀ q ∈ old, q.addr ≠ np.addr ∧ q.template ≠ some np.addr

theorem TreeOk.eq_of_addr (h : TreeOk old nps) (hp : p ∈ old) (hq : q ∈ old)
    (heq : p.addr = q.addr) : p = q := List.inj_on_of_nodup_map h.addrs hp hq heq

/-- `mergeOne` for a peer that is neither this one nor its template. -/
theorem mergeOne_other (hne : q.addr ≠ p.addr) (htemplate : q.template ≠ some p.addr) :
    mergeOne nc nps p q = q := by
  rw [mergeOne]
  by_cases hclone : p.template.isSome = true
  · exact if_pos hclone
  rw [if_neg hclone]
  cases nps.find? (·.conf.id = p.conf.id) with
  | none => exact if_neg hne
  | some np =>
    dsimp only
    rw [if_neg hne, if_neg]
    exact fun h => htemplate h.2

/-- No step of a reload moves a peer. -/
theorem mergeAll_addr (nc : BgpdConfig) (nps old : List Peer) (q : Peer) :
    (mergeAll nc nps old q).addr = q.addr := by
  have hone : ∀ p q : Peer, (mergeOne nc nps p q).addr = q.addr := by
    intro p q
    rw [mergeOne]
    by_cases hclone : p.template.isSome = true
    · rw [if_pos hclone]
    rw [if_neg hclone]
    cases nps.find? (·.conf.id = p.conf.id) with
    | none =>
      dsimp only
      split_ifs <;> rfl
    | some np =>
      have hself := (mergePeer_spec nc np.conf np.authConf q).1.addr
      dsimp only
      split_ifs
      · exact (mergeClone_spec nc _ _).1.addr.trans hself
      · exact hself
      · exact (mergeClone_spec nc _ q).1.addr
      · rfl
  induction old generalizing q with
  | nil => rfl
  | cons p old ih =>
    rw [mergeAll, List.foldl_cons]
    exact (ih (mergeOne nc nps p q)).trans (hone p q)

/-- A peer that is no clone. -/
theorem mergeAll_self (h : TreeOk old nps) (hq : q ∈ old) (hself : q.template = none) :
    mergeAll nc nps old q = match nps.find? (·.conf.id = q.conf.id) with
      | none => { q with reconfAction := .delete }
      | some np => (Cur.mergePeer nc np.conf np.authConf { peer := q }).peer := by
  have hone : mergeOne nc nps q q = match nps.find? (·.conf.id = q.conf.id) with
      | none => { q with reconfAction := .delete }
      | some np => (Cur.mergePeer nc np.conf np.authConf { peer := q }).peer := by
    rw [mergeOne, hself, if_neg (by simp)]
    cases nps.find? (·.conf.id = q.conf.id) with
    | none => exact if_pos rfl
    | some np =>
      dsimp only
      rw [if_pos rfl, if_neg]
      rw [(mergePeer_spec nc np.conf np.authConf q).1.template, hself]
      exact fun h => nomatch h.2
  have hsame : (mergeOne nc nps q q).addr = q.addr ∧ (mergeOne nc nps q q).template = none := by
    rw [hone]
    cases nps.find? (·.conf.id = q.conf.id) with
    | none => exact ⟨rfl, hself⟩
    | some np =>
      have hspec := (mergePeer_spec nc np.conf np.authConf q).1
      exact ⟨hspec.addr, hspec.template.trans hself⟩
  rw [← hone]
  refine foldl_single (fun b => b.addr = q.addr ∧ b.template = none)
    (List.Nodup.of_map _ h.addrs) hq ⟨rfl, hself⟩ hsame fun b x hb hx hne => ?_
  refine mergeOne_other ?_ ?_
  · rw [hb.1]
    exact fun heq => hne (h.eq_of_addr hx hq heq.symm)
  · rw [hb.2]
    exact fun h => nomatch h

/-- The peer at the address `a` is in the tree, and `np` is the peer of the new configuration with
    its id and a template. -/
def TemplateKept (nps old : List Peer) (a : ℕ) (np : Peer) : Prop :=
  ∃ t ∈ old, t.addr = a ∧ t.template = none ∧
    nps.find? (·.conf.id = t.conf.id) = some np ∧ np.conf.template = true

/-- A clone whose template is a template of the new configuration. -/
theorem mergeAll_clone {a : ℕ} {np : Peer} (h : TreeOk old nps) (hq : q ∈ old)
    (hclone : q.template = some a) (ht : t ∈ old) (haddr : t.addr = a) (htop : t.template = none)
    (hfind : nps.find? (·.conf.id = t.conf.id) = some np) (htemplate : np.conf.template = true) :
    mergeAll nc nps old q =
      (Cur.mergeClone nc (Cur.applyDefaults nc np.conf) { peer := q }).peer := by
  have hne : q.addr ≠ t.addr := fun heq => by
    rw [h.eq_of_addr hq ht heq, htop] at hclone
    cases hclone
  have hone : mergeOne nc nps t q =
      (Cur.mergeClone nc (Cur.applyDefaults nc np.conf) { peer := q }).peer := by
    rw [mergeOne, htop, if_neg (by simp), hfind]
    dsimp only
    rw [if_neg hne, if_pos ⟨htemplate, by rw [hclone, haddr]⟩]
  have hspec := (mergeClone_spec nc (Cur.applyDefaults nc np.conf) q).1
  rw [← hone] at hspec ⊢
  refine foldl_single (fun b => b.addr = q.addr ∧ b.template = some a)
    (List.Nodup.of_map _ h.addrs) ht ⟨rfl, hclone⟩ ⟨hspec.addr, hspec.template.trans hclone⟩
    fun b x hb hx hxt => ?_
  by_cases hself : b.addr = x.addr
  · -- a clone is skipped when it is its own turn
    obtain rfl := h.eq_of_addr hx hq (hself.symm.trans hb.1)
    rw [mergeOne, hclone, if_pos (by simp)]
  · refine mergeOne_other hself ?_
    rw [hb.2]
    intro heq
    exact hxt (h.eq_of_addr hx ht (by rw [haddr]; exact (Option.some.inj heq).symm))

/-- A clone whose template is not a template of the new configuration is not touched. -/
theorem mergeAll_orphan {a : ℕ} (h : TreeOk old nps) (hq : q ∈ old) (hclone : q.template = some a)
    (hkept : ∀ np, ¬ TemplateKept nps old a np) : mergeAll nc nps old q = q := by
  refine foldl_none fun x hx => ?_
  by_cases hself : q.addr = x.addr
  · obtain rfl := h.eq_of_addr hx hq hself.symm
    rw [mergeOne, hclone, if_pos (by simp)]
  by_cases htemplate : q.template = some x.addr
  · have haddr : x.addr = a := Option.some.inj (htemplate.symm.trans hclone)
    rw [mergeOne]
    by_cases hx' : x.template.isSome = true
    · exact if_pos hx'
    rw [if_neg hx']
    cases hfind : nps.find? (·.conf.id = x.conf.id) with
    | none => exact if_neg hself
    | some np =>
      dsimp only
      rw [if_neg hself, if_neg]
      exact fun hnp => hkept np ⟨x, hx, haddr, by simpa using hx', hfind, hnp.1⟩
  · exact mergeOne_other hself htemplate

/-! ## Accounting -/

/-- A peer after a reload: marked for removal, new, an old one with the new settings and its
    session, or a clone with its session and the new settings of its template, which stays. -/
inductive Accounted (nc : BgpdConfig) (nps old result : List Peer) (p : Peer) : Prop where
  | removed (h : p.reconfAction = .delete)
  | added (h : p ∈ nps)
  | kept (q np : Peer) (hq : q ∈ old) (hself : q.template = none)
      (hfind : nps.find? (·.conf.id = q.conf.id) = some np) (hsession : SameSession q p)
      (hconf : p.conf = Cur.applyDefaults nc np.conf) (hauth : p.authConf = np.authConf)
      (hbgpid : p.localBgpid = nc.bgpid)
  | clone (q t : Peer) (hq : q ∈ old) (hsession : SameSession q p) (ht : t ∈ result)
      (hclone : p.template = some t.addr) (hstays : t.reconfAction = .keep)
      (htemplate : t.conf.template = true) (hcarries : Carries t q p)

/-- The peer of the result that a clone points to was in the tree before. -/
theorem old_of_template {a : ℕ} (h : TreeOk e.peers nps) (hq : q ∈ e.peers)
    (hclone : q.template = some a) (ht : t ∈ (e.mergePeers nc nps).peers) (haddr : t.addr = a) :
    ∃ t₀ ∈ e.peers, mergeAll nc nps e.peers t₀ = t := by
  rcases mergePeers_peers.mp ht with hnew | hold
  · have hmem : t ∈ nps := List.mem_of_mem_filter hnew
    exact absurd (hclone.trans (by rw [haddr])) (h.fresh t hmem q hq).2
  · exact hold

/-- A peer of the tree that is a template after the reload and stays is one of the new
    configuration. -/
theorem templateKept_of_stays {t₀ : Peer} (h : TreeOk e.peers nps) (ht₀ : t₀ ∈ e.peers)
    (hstays : (mergeAll nc nps e.peers t₀).reconfAction = .keep)
    (htemplate : (mergeAll nc nps e.peers t₀).conf.template = true) :
    ∃ np, TemplateKept nps e.peers (mergeAll nc nps e.peers t₀).addr np := by
  cases htop : t₀.template with
  | none =>
    rw [mergeAll_self h ht₀ htop] at hstays htemplate ⊢
    cases hfind : nps.find? (·.conf.id = t₀.conf.id) with
    | none =>
      rw [hfind] at hstays
      cases hstays
    | some np =>
      have hspec := mergePeer_spec nc np.conf np.authConf t₀
      rw [hfind] at htemplate
      dsimp only at htemplate ⊢
      rw [hspec.2.1] at htemplate
      exact ⟨np, t₀, ht₀, hspec.1.addr.symm, htop, hfind, htemplate⟩
  | some b =>
    -- a clone is no template, neither before nor after
    by_cases hb : ∃ np, TemplateKept nps e.peers b np
    · obtain ⟨np, t₁, ht₁, haddr₁, htop₁, hfind, hnp⟩ := hb
      rw [mergeAll_clone h ht₀ htop ht₁ haddr₁ htop₁ hfind hnp, (mergeClone_spec nc _ t₀).2.1,
        sessionTemplateClone_template] at htemplate
      cases htemplate
    · rw [mergeAll_orphan h ht₀ htop (not_exists.mp hb), h.clones t₀ ht₀ (by rw [htop]; rfl)]
        at htemplate
      cases htemplate

/-- A clone that is not accounted for by its template is not accounted for at all. -/
theorem not_accounted_orphan {a : ℕ} (h : TreeOk e.peers nps) (hq : q ∈ e.peers)
    (hclone : q.template = some a) (hdelete : q.reconfAction ≠ .delete)
    (hkept : ∀ np, ¬ TemplateKept nps e.peers a np) :
    ¬ Accounted nc nps e.peers (e.mergePeers nc nps).peers q := by
  intro hacc
  cases hacc with
  | removed hd => exact hdelete hd
  | added hmem =>
    rw [(h.new q hmem).1] at hclone
    cases hclone
  | kept q' np hq' hself hfind hsession hconf hauth hbgpid =>
    rw [hsession.template, hself] at hclone
    cases hclone
  | clone q' t hq' hsession ht hcl hstays htemplate hcarries =>
    have haddr : t.addr = a := Option.some.inj (hcl.symm.trans hclone)
    obtain ⟨t₀, ht₀, rfl⟩ := old_of_template h hq hclone ht haddr
    obtain ⟨np, hnp⟩ := templateKept_of_stays h ht₀ hstays htemplate
    exact hkept np (haddr ▸ hnp)

/-- After `merge_peers` a peer that is no clone is accounted for. -/
theorem accounted_self {result : List Peer} (h : TreeOk old nps) (hq : q ∈ old)
    (hself : q.template = none) : Accounted nc nps old result (mergeAll nc nps old q) := by
  rw [mergeAll_self h hq hself]
  cases hfind : nps.find? (·.conf.id = q.conf.id) with
  | none => exact Accounted.removed rfl
  | some np =>
    obtain ⟨hsession, hconf, hauth, hbgpid, -⟩ := mergePeer_spec nc np.conf np.authConf q
    exact Accounted.kept q np hq hself hfind hsession hconf hauth hbgpid

/-- After `merge_peers` a clone whose template stays is accounted for exactly if the new settings
    reach it. -/
theorem accounted_clone {a : ℕ} {np : Peer} (h : TreeOk e.peers nps) (hq : q ∈ e.peers)
    (hclone : q.template = some a) (hdelete : q.reconfAction ≠ .delete)
    (hkept : TemplateKept nps e.peers a np) :
    Accounted nc nps e.peers (e.mergePeers nc nps).peers (mergeAll nc nps e.peers q) ↔
      Reaches np q := by
  obtain ⟨t, ht, haddr, htop, hfind, htemplate⟩ := hkept
  have hmerged :
      mergeAll nc nps e.peers t = (Cur.mergePeer nc np.conf np.authConf { peer := t }).peer := by
    rw [mergeAll_self h ht htop, hfind]
  obtain ⟨htsession, htconf, -, -, hstays⟩ := mergePeer_spec nc np.conf np.authConf t
  obtain ⟨hsession, -, -, -, haction⟩ := mergeClone_spec nc (Cur.applyDefaults nc np.conf) q
  have hreaches : Carries (Cur.mergePeer nc np.conf np.authConf { peer := t }).peer q
      (Cur.mergeClone nc (Cur.applyDefaults nc np.conf) { peer := q }).peer ↔ Reaches np q :=
    carries_iff np t q
  rw [mergeAll_clone h hq hclone ht haddr htop hfind htemplate, ← hreaches, ← hmerged]
  clear hreaches
  rw [← hmerged] at htsession htconf hstays
  generalize (Cur.mergeClone nc (Cur.applyDefaults nc np.conf) { peer := q }).peer = p at *
  constructor
  -- the clone is neither new nor removed nor a template
  · intro hacc
    cases hacc with
    | removed hd => exact absurd (haction.symm.trans hd) hdelete
    | added hmem =>
      have hnone := (h.new p hmem).1
      rw [hsession.template, hclone] at hnone
      cases hnone
    | kept q' np' hq' hself hfind' hsession' hconf' hauth' hbgpid' =>
      have hnone := hsession'.template.trans hself
      rw [hsession.template, hclone] at hnone
      cases hnone
    | clone q' t' hq' hsession' ht' hcl hstays' htemplate' hcarries =>
      -- addresses tell that these are the clone and its template
      obtain rfl := h.eq_of_addr hq' hq (hsession'.addr.symm.trans hsession.addr)
      have haddr' : t'.addr = a :=
        Option.some.inj (hcl.symm.trans (hsession.template.trans hclone))
      obtain ⟨t₀, ht₀, rfl⟩ := old_of_template h hq hclone ht' haddr'
      have hsame : t₀.addr = t.addr := by
        rw [haddr, ← haddr', mergeAll_addr]
      obtain rfl := h.eq_of_addr ht₀ ht hsame
      exact hcarries
  · intro hcarries
    refine Accounted.clone q (mergeAll nc nps e.peers t) hq hsession
      (mergePeers_peers.mpr (Or.inr ⟨t, ht, rfl⟩)) ?_ hstays ?_ hcarries
    · rw [hsession.template, hclone, htsession.addr, haddr]
    · rw [htconf]
      exact htemplate

/-- Marked clones stay marked. -/
theorem mergeAll_delete {a : ℕ} (h : TreeOk old nps) (hq : q ∈ old) (hclone : q.template = some a)
    (hdelete : q.reconfAction = .delete) : (mergeAll nc nps old q).reconfAction = .delete := by
  by_cases hkept : ∃ np, TemplateKept nps old a np
  · obtain ⟨np, t, ht, haddr, htop, hfind, htemplate⟩ := hkept
    rw [mergeAll_clone h hq hclone ht haddr htop hfind htemplate,
      (mergeClone_spec nc _ q).2.2.2.2]
    exact hdelete
  · rw [mergeAll_orphan h hq hclone (not_exists.mp hkept)]
    exact hdelete

/-- After `merge_peers` every peer is accounted for exactly if every clone that is not marked for
    removal already belongs to a template that is a template of the new configuration, whose
    settings reach it. -/
theorem merge_accounts (e : Engine) (nc : BgpdConfig) (nps : List Peer) (h : TreeOk e.peers nps) :
    (∀ p ∈ (e.mergePeers nc nps).peers,
      Accounted nc nps e.peers (e.mergePeers nc nps).peers p) ↔
    ∀ q ∈ e.peers, ∀ a, q.template = some a → q.reconfAction ≠ .delete →
      ∃ np, TemplateKept nps e.peers a np ∧ Reaches np q := by
  constructor
  · intro hacc q hq a hclone hdelete
    have hmem : mergeAll nc nps e.peers q ∈ (e.mergePeers nc nps).peers :=
      mergePeers_peers.mpr (Or.inr ⟨q, hq, rfl⟩)
    by_cases hkept : ∃ np, TemplateKept nps e.peers a np
    · obtain ⟨np, hnp⟩ := hkept
      exact ⟨np, hnp, (accounted_clone h hq hclone hdelete hnp).mp (hacc _ hmem)⟩
    · have horphan := not_exists.mp hkept
      rw [mergeAll_orphan h hq hclone horphan] at hmem
      exact absurd (hacc q hmem) (not_accounted_orphan h hq hclone hdelete horphan)
  · intro hkept p hp
    rcases mergePeers_peers.mp hp with hnew | ⟨q, hq, rfl⟩
    · exact Accounted.added (List.mem_of_mem_filter hnew)
    · cases hclone : q.template with
      | none => exact accounted_self h hq hclone
      | some a =>
        by_cases hdelete : q.reconfAction = .delete
        · exact Accounted.removed (mergeAll_delete h hq hclone hdelete)
        · obtain ⟨np, hnp, hreaches⟩ := hkept q hq a hclone hdelete
          exact (accounted_clone h hq hclone hdelete hnp).mpr hreaches

/-- A template of the examples: the neighbors of a network in one AS. -/
def sampleTemplate : PeerConf :=
  { id := 2, remoteAddr := { aid := some .inet, addr := 10 * 2 ^ 24 }, remoteMasklen := 8
    remoteAs := 65001, localAs := 65000, localShortAs := 65000, template := true, passive := true }

/-- The engine with the template and a neighbor after a connection from the network of the template,
    when a reload is about to end. -/
def sampleEngine : Engine :=
  Engine.run ([.reconfConf {}, .reconfPeer sampleTemplate, .reconfPeerAuth 2 .md5sig,
    .reconfPeer { sampleConf with id := 3 }, .reconfDone, .main,
    .accept { aid := some .inet, addr := 10 * 2 ^ 24 + 1 } 5 false false, .reconfConf {}].map
      (sampleEnv 1 .noSocket fun _ => false, ·))

/-- A configuration with another hold time for the template, and another neighbor. -/
def samplePeers : List Peer :=
  [{ conf := { sampleTemplate with holdtime := 30 }, addr := 3, authConf := { method := .md5sig } },
   { conf := { sampleConf with id := 4 }, addr := 4 }]

/-- The template is kept with its clone, one neighbor goes and one comes. -/
theorem merge_accounts_sample :
    (sampleEngine.mergePeers {} samplePeers).peers.map (fun p => (p.conf.id, p.conf.holdtime)) =
        [(peerIdDynMax, 30), (2, 30), (3, 0), (4, 0)] ∧
      ∀ p ∈ (sampleEngine.mergePeers {} samplePeers).peers,
        Accounted {} samplePeers sampleEngine.peers
          (sampleEngine.mergePeers {} samplePeers).peers p := by
  refine ⟨by decide +kernel, (merge_accounts sampleEngine {} samplePeers
    ⟨by decide +kernel, by decide +kernel, by decide +kernel, by decide +kernel⟩).mpr ?_⟩
  intro q hq a hclone hdelete
  have hpeers : ∀ q ∈ sampleEngine.peers, q.template = none ∨ q.template = some 0 ∧
      q.authConf = { method := .md5sig } ∧ q.conf.remoteAs = 65001 := by decide +kernel
  have htop : ∃ t ∈ sampleEngine.peers, t.addr = 0 ∧ t.template = none ∧ t.conf.id = 2 := by
    decide +kernel
  rcases hpeers q hq with hnone | ⟨hsome, hauth, has⟩
  · rw [hnone] at hclone
    cases hclone
  obtain rfl : 0 = a := Option.some.inj (hsome.symm.trans hclone)
  obtain ⟨t, ht, haddr, htemplate, hid⟩ := htop
  exact ⟨_, ⟨t, ht, haddr, htemplate, by rw [hid]; rfl, rfl⟩, hauth, fun _ _ => has, fun _ _ => rfl⟩

/-- The clone of a template that the new configuration does not have is left as it is. -/
theorem clone_not_accounted : ¬ ∀ (e : Engine) (nc : BgpdConfig) (nps : List Peer),
    TreeOk e.peers nps → ∀ p ∈ (e.mergePeers nc nps).peers,
      Accounted nc nps e.peers (e.mergePeers nc nps).peers p := by
  intro h
  have htree : TreeOk sampleEngine.peers [] :=
    ⟨by decide +kernel, by decide +kernel, by decide +kernel, by decide +kernel⟩
  have hclone : ∃ q ∈ sampleEngine.peers, q.template = some 0 ∧
      q.reconfAction ≠ .delete := by decide +kernel
  have hkept : ∀ np, ¬ TemplateKept [] sampleEngine.peers 0 np := by
    rintro np ⟨t, -, -, -, hfind, -⟩
    cases hfind
  obtain ⟨q, hq, hclone, hdelete⟩ := hclone
  exact not_accounted_orphan htree hq hclone hdelete hkept (h sampleEngine {} [] htree q
    (mergePeers_peers.mpr (Or.inr ⟨q, hq, mergeAll_orphan htree hq hclone hkept⟩)))

end Bgpd.Session
