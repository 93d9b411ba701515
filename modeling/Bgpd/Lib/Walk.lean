import Mathlib.Data.List.Basic

/-!
# Walks in Rounds

A walk over the keys of a sorted collection that is done in rounds: each round visits a number
of keys and then pauses at the next one, and between two rounds the collection may change. A
cursor says where the walk is. What a visit establishes for a key and no other change destroys
holds for all keys that are not ahead of the cursor, and for all keys when the walk is over.

## Main results

- `walkKeys_invariant`: what every visit preserves, a round preserves
- `walkKeys_spec`: what a round does to the keys that it goes through
- `Behind.round`: a round keeps the invariant of a walk
-/

namespace Bgpd.Lib

universe u v

variable {κ : Type u} {σ : Type v}

/-- Where a walk is: `idle` if there is none, `start` if it has not visited any key yet, and
    otherwise the key with which it goes on. -/
inductive Cursor (κ : Type u) where
  | idle
  | start
  | pause (k : κ)
  deriving DecidableEq, Repr

/-- The key is still to be visited. -/
def Cursor.ahead (le : κ → κ → Bool) : Cursor κ → κ → Bool
  | .idle, _ => false
  | .start, _ => true
  | .pause p, k => le p k

/-- Visit up to `n` keys, but pass over those for which there is nothing to do. -/
def walkKeys (skip : σ → κ → Bool) (call : κ → σ → Option σ) :
    ℕ → List κ → σ → Option (Cursor κ × σ)
  | _, [], s => some (.idle, s)
  | n, k :: rest, s =>
    if skip s k then walkKeys skip call n rest s
    else
      match n with
      | 0 => some (.pause k, s)
      | n + 1 => (call k s).bind fun s => walkKeys skip call n rest s

section Round

variable {le : κ → κ → Bool} {skip : σ → κ → Bool} {call : κ → σ → Option σ}
variable {Inv : σ → Prop} {Good : σ → κ → Prop}

/-- What every visit preserves. -/
theorem walkKeys_invariant (hinv : ∀ s k s', Inv s → call k s = some s' → Inv s')
    {n : ℕ} {rest : List κ} {s s' : σ} {c : Cursor κ}
    (h : walkKeys skip call n rest s = some (c, s')) (hs : Inv s) : Inv s' := by
  induction rest generalizing n s with
  | nil =>
    rw [walkKeys] at h
    cases h
    exact hs
  | cons x rest ih =>
    rw [walkKeys.eq_def] at h
    dsimp only at h
    split_ifs at h
    · exact ih h hs
    · cases n with
      | zero =>
        cases h
        exact hs
      | succ n =>
        obtain ⟨s₁, hcall, h⟩ := Option.bind_eq_some_iff.mp h
        exact ih h (hinv s x s₁ hs hcall)

/-- What has to be known about the visits of a walk. -/
structure Visits (skip : σ → κ → Bool) (call : κ → σ → Option σ) (Inv : σ → Prop)
    (Good : σ → κ → Prop) : Prop where
  skipped : ∀ s k, skip s k = true → Good s k
  inv : ∀ s k s', Inv s → call k s = some s' → Inv s'
  good : ∀ s k s', Inv s → call k s = some s' → Good s' k
  others : ∀ s k s', Inv s → call k s = some s' → ∀ k', Good s k' → Good s' k'

/-- The keys of a round are good afterwards, or the walk has paused before it got to them. -/
theorem walkKeys_spec (hv : Visits skip call Inv Good) (hrefl : ∀ k, le k k = true)
    {n : ℕ} {rest : List κ} {s s' : σ} {c : Cursor κ}
    (hsorted : rest.Pairwise fun a b => le a b = true)
    (h : walkKeys skip call n rest s = some (c, s')) (hs : Inv s) :
    Inv s' ∧ (∀ k, Good s k → Good s' k) ∧ ∀ k ∈ rest, c.ahead le k = true ∨ Good s' k := by
  induction rest generalizing n s with
  | nil =>
    rw [walkKeys] at h
    cases h
    exact ⟨hs, fun _ hk => hk, by simp⟩
  | cons x rest ih =>
    obtain ⟨hx, hsorted⟩ := List.pairwise_cons.mp hsorted
    rw [walkKeys.eq_def] at h
    dsimp only at h
    split_ifs at h with hskip
    -- a skipped key is good as it is
    · obtain ⟨hinv, hkeep, hrest⟩ := ih hsorted h hs
      refine ⟨hinv, hkeep, fun k hk => ?_⟩
      rcases List.mem_cons.mp hk with rfl | hk
      · exact Or.inr (hkeep k (hv.skipped s k hskip))
      · exact hrest k hk
    · cases n with
      | zero =>
        -- the walk pauses here, and the keys that follow are larger
        cases h
        refine ⟨hs, fun _ hk => hk, fun k hk => Or.inl ?_⟩
        rcases List.mem_cons.mp hk with rfl | hk
        · exact hrefl k
        · exact hx k hk
      | succ n =>
        obtain ⟨s₁, hcall, h⟩ := Option.bind_eq_some_iff.mp h
        -- the call makes its key good, and no later call undoes that
        obtain ⟨hinv, hkeep, hrest⟩ := ih hsorted h (hv.inv s x s₁ hs hcall)
        refine ⟨hinv, fun k hk => hkeep k (hv.others s x s₁ hs hcall k hk), fun k hk => ?_⟩
        rcases List.mem_cons.mp hk with rfl | hk
        · exact Or.inr (hkeep k (hv.good s k s₁ hs hcall))
        · exact hrest k hk

/-- The keys that are not ahead of the cursor are good. -/
def Behind (le : κ → κ → Bool) (Good : σ → κ → Prop) (keys : List κ) (c : Cursor κ) (s : σ) :
    Prop :=
  ∀ k ∈ keys, c.ahead le k = true ∨ Good s k

theorem Behind.of_idle {keys : List κ} {s : σ} (h : Behind le Good keys .idle s) :
    ∀ k ∈ keys, Good s k := by
  intro k hk
  exact (h k hk).resolve_left (by simp [Cursor.ahead])

theorem behind_start (keys : List κ) (s : σ) : Behind le Good keys .start s :=
  fun _ _ => Or.inl rfl

/-- One round with the keys that are ahead of the cursor. -/
theorem Behind.round (hv : Visits skip call Inv Good) (hrefl : ∀ k, le k k = true)
    {keys : List κ} (hsorted : keys.Pairwise fun a b => le a b = true)
    {n : ℕ} {s s' : σ} {c c' : Cursor κ} (hb : Behind le Good keys c s) (hs : Inv s)
    (h : walkKeys skip call n (keys.filter (c.ahead le)) s = some (c', s')) :
    Inv s' ∧ Behind le Good keys c' s' := by
  obtain ⟨hinv, hkeep, hrest⟩ := walkKeys_spec hv hrefl (hsorted.filter _) h hs
  refine ⟨hinv, fun k hk => ?_⟩
  rcases hb k hk with hahead | hgood
  · exact hrest k (List.mem_filter.mpr ⟨hk, hahead⟩)
  · exact Or.inr (hkeep k hgood)

end Round

end Bgpd.Lib
