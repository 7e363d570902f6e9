import Mathlib

/-!
Computations of which one succeeds wherever the other does.

`Matches R x y` says that if `x` returns a value, so does `y`, and that the two
values are related by `R`. How `y` fares where `x` fails is left open. The
rules follow the way a computation is written, so that two runs of one
function from related states are compared line by line.
-/

namespace StorageEngine.Lib

universe u

variable {ε ε' : Type*} {α β γ δ : Type u}

def Matches (R : α → β → Prop) (x : Except ε α) (y : Except ε' β) : Prop :=
  ∀ a, x = .ok a → ∃ b, y = .ok b ∧ R a b

namespace Matches

variable {R : α → β → Prop} {Q : γ → δ → Prop} {x x' : Except ε α} {y y' : Except ε' β}

theorem ok {a : α} {b : β} (h : R a b) :
    Matches R (.ok a : Except ε α) (.ok b : Except ε' β) := by
  intro a' ha
  obtain rfl := Except.ok.inj ha
  exact ⟨b, rfl, h⟩

theorem error (e : ε) (y : Except ε' β) : Matches R (.error e) y := by
  intro a ha
  cases ha

theorem bind {f : α → Except ε γ} {g : β → Except ε' δ} (h : Matches R x y)
    (hfg : ∀ a b, R a b → Matches Q (f a) (g b)) : Matches Q (x >>= f) (y >>= g) := by
  intro c hc
  cases x with
  | error e => cases hc
  | ok a =>
      obtain ⟨b, rfl, hab⟩ := h a rfl
      exact hfg a b hab c hc

/-- The same first step. -/
theorem next (z : Except ε α) {f : α → Except ε γ} {g : α → Except ε δ}
    (hfg : ∀ a, Matches Q (f a) (g a)) : Matches Q (z >>= f) (z >>= g) := by
  cases z with
  | error e => exact error e _
  | ok a => exact hfg a

theorem ite {c : Prop} [Decidable c] (h : c → Matches R x y) (h' : ¬c → Matches R x' y') :
    Matches R (if c then x else x') (if c then y else y') := by
  split
  · next hc => exact h hc
  · next hc => exact h' hc

theorem mapError {ζ ζ' : Type*} (f : ε → ζ) (f' : ε' → ζ') (h : Matches R x y) :
    Matches R (x.mapError f) (y.mapError f') := by
  intro a ha
  cases x with
  | error e => cases ha
  | ok a' =>
      obtain rfl := Except.ok.inj ha
      obtain ⟨b, rfl, hab⟩ := h a' rfl
      exact ⟨b, rfl, hab⟩

end Matches

end StorageEngine.Lib
