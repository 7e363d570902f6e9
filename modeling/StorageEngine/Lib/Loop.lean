import Mathlib

/-!
While loops whose turns may fail.

A loop is its turn `turn : σ → Except ε (σ ⊕ β)`, the test included: it goes
on with a next state, ends with a result, or fails. `Ends` is the run of the
whole loop, with no bound on the turns. The rule for it asks for an invariant
and a variant, and gives both that the loop ends and what it ends with.
-/

namespace StorageEngine.Lib

variable {ε σ β : Type*} {turn : σ → Except ε (σ ⊕ β)}

/-- The loop, entered in a state, ends with a result. -/
inductive Ends (turn : σ → Except ε (σ ⊕ β)) : σ → β → Prop
  | exit {s : σ} {b : β} : turn s = .ok (.inr b) → Ends turn s b
  | next {s s' : σ} {b : β} : turn s = .ok (.inl s') → Ends turn s' b → Ends turn s b

/-- **The loop rule.** Every turn ends the loop with a result as wanted, or
keeps the invariant `I` and makes the variant `V` smaller. -/
theorem exists_ends (I : σ → Prop) (V : σ → ℕ) {Q : β → Prop}
    (hturn : ∀ s, I s → (∃ b, turn s = .ok (.inr b) ∧ Q b) ∨
      ∃ s', turn s = .ok (.inl s') ∧ I s' ∧ V s' < V s)
    {s : σ} (hs : I s) : ∃ b, Ends turn s b ∧ Q b := by
  induction hV : V s using Nat.strong_induction_on generalizing s with
  | h n ih =>
      rcases hturn s hs with ⟨b, hexit, hb⟩ | ⟨s', hnext, hs', hlt⟩
      · exact ⟨b, .exit hexit, hb⟩
      · obtain ⟨b, hends, hb⟩ := ih (V s') (hV ▸ hlt) hs' rfl
        exact ⟨b, .next hnext hends, hb⟩

end StorageEngine.Lib
