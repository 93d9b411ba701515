import Mathlib.Tactic.Common

/-!
# Computations That End without an Error

`Ends x P` is total correctness for a computation that can fail: it comes to its end, with a result
that has the property `P`. The rules follow the way a computation is put together.

## Main results

- `Ends.bind`: one computation after the other
- `Ends.mono`: a weaker property
- `ends_ok_iff`: the result of a computation that is known
-/

namespace Bgpd.Lib

variable {ε α β : Type} {P Q : α → Prop}

/-- The computation has no error, and its result has the property. -/
def Ends (x : Except ε α) (P : α → Prop) : Prop := ∃ a, x = .ok a ∧ P a

@[simp] theorem ends_ok_iff {a : α} : Ends (.ok a : Except ε α) P ↔ P a := by
  constructor
  · rintro ⟨b, hb, h⟩
    cases hb
    exact h
  · exact fun h => ⟨a, rfl, h⟩

@[simp] theorem ends_pure_iff {a : α} : Ends (pure a : Except ε α) P ↔ P a := ends_ok_iff

theorem Ends.exists_ok {x : Except ε α} (hx : Ends x P) : ∃ a, x = .ok a := by
  obtain ⟨a, ha, _⟩ := hx
  exact ⟨a, ha⟩

/-- A result that is known has the property. -/
theorem ends_eq {x : Except ε α} {a : α} (hx : Ends x P) (heq : x = .ok a) : P a := by
  obtain ⟨b, hb, hP⟩ := hx
  rw [heq, Except.ok.injEq] at hb
  exact hb ▸ hP

theorem Ends.bind {x : Except ε α} {f : α → Except ε β} {R : β → Prop} (hx : Ends x P)
    (hf : ∀ a, P a → Ends (f a) R) : Ends (x >>= f) R := by
  obtain ⟨a, rfl, ha⟩ := hx
  exact hf a ha

theorem Ends.mono {x : Except ε α} (hx : Ends x P) (h : ∀ a, P a → Q a) : Ends x Q := by
  obtain ⟨a, rfl, ha⟩ := hx
  exact ⟨a, rfl, h a ha⟩

theorem Ends.ite {c : Prop} [Decidable c] {x y : Except ε α} (hx : c → Ends x P)
    (hy : ¬c → Ends y P) : Ends (if c then x else y) P := by
  by_cases h : c
  · rw [if_pos h]
    exact hx h
  · rw [if_neg h]
    exact hy h

end Bgpd.Lib
