import Mathlib

/-!
Programs that talk to a machine through commands.

A program asks for a command and goes on with the reply, ends with a value
or fails. It does not know the machine: `run` executes it on any machine
that says what a command does to its state. The rules below lift a fact about
one command to programs: `run_bind` composes runs, and `run_sim` is a
simulation between two machines, under conditions met along their runs.
-/

namespace StorageEngine.Lib

/-- Programs with commands `C` and failures `E`. -/
inductive Prog (C : Type → Type) (E : Type) (α : Type) : Type 1
  | ret (a : α)
  | fail (e : E)
  | cmd {β : Type} (c : C β) (k : β → Prog C E α)

namespace Prog

variable {C : Type → Type} {E α β : Type}

def bind : Prog C E α → (α → Prog C E β) → Prog C E β
  | .ret a, f => f a
  | .fail e, _ => .fail e
  | .cmd c k, f => .cmd c fun b => (k b).bind f

instance : Monad (Prog C E) where
  pure := .ret
  bind := .bind

theorem bind_ret (p : Prog C E α) : p.bind .ret = p := by
  induction p with
  | ret a => rfl
  | fail e => rfl
  | cmd c k ih =>
      rw [bind]
      congr 1
      funext b
      exact ih b

theorem bind_bind {γ : Type} (p : Prog C E α) (f : α → Prog C E β) (g : β → Prog C E γ) :
    (p.bind f).bind g = p.bind fun a => (f a).bind g := by
  induction p with
  | ret a => rfl
  | fail e => rfl
  | cmd c k ih =>
      rw [bind, bind, bind]
      congr 1
      funext b
      exact ih b

instance : LawfulMonad (Prog C E) := LawfulMonad.mk' (Prog C E)
  (fun p => bind_ret p) (fun _ _ => rfl) (fun p f g => bind_bind p f g)

/-- The program of one command. -/
def call (c : C β) : Prog C E β := .cmd c .ret

/-- A computation without commands. -/
def lift : Except E α → Prog C E α
  | .ok a => .ret a
  | .error e => .fail e

section Run

variable {σ : Type*} (step : ∀ β, C β → σ → Except E (β × σ))

/-- The run of a program on the machine `step`. -/
def run : Prog C E α → σ → Except E (α × σ)
  | .ret a, s => .ok (a, s)
  | .fail e, _ => .error e
  | .cmd c k, s =>
      match step _ c s with
      | .error e => .error e
      | .ok (b, s') => (k b).run s'

/-- The condition `good` is met at every command of the run of a program. -/
def Along (good : ∀ β, C β → σ → Prop) : Prog C E α → σ → Prop
  | .ret _, _ => True
  | .fail _, _ => True
  | .cmd c k, s => good _ c s ∧ ∀ b s', step _ c s = .ok (b, s') → (k b).Along good s'

/-- A run is checked command by command. -/
instance decidableAlong (good : ∀ β, C β → σ → Prop) [∀ β c s, Decidable (good β c s)] :
    ∀ (p : Prog C E α) (s : σ), Decidable (p.Along step good s)
  | .ret _, _ => isTrue trivial
  | .fail _, _ => isTrue trivial
  | .cmd c k, s =>
      match hs : step _ c s with
      | .error _ => decidable_of_iff (good _ c s) (by simp [Along, hs])
      | .ok (b, s') =>
          haveI := decidableAlong good (k b) s'
          decidable_of_iff (good _ c s ∧ (k b).Along step good s') (by
            simp only [Along, hs, Except.ok.injEq, Prod.mk.injEq]
            refine and_congr_right fun _ => ⟨?_, fun h => h b s' ⟨rfl, rfl⟩⟩
            rintro h _ _ ⟨rfl, rfl⟩
            exact h)

variable {step}

@[simp] theorem run_pure (a : α) (s : σ) : (pure a : Prog C E α).run step s = .ok (a, s) := rfl

@[simp] theorem run_fail (e : E) (s : σ) :
    (fail e : Prog C E α).run step s = .error e := rfl

theorem run_bind (p : Prog C E α) (f : α → Prog C E β) (s : σ) :
    (p >>= f).run step s =
      match p.run step s with
      | .error e => .error e
      | .ok (a, s') => (f a).run step s' := by
  show (p.bind f).run step s = _
  induction p generalizing s with
  | ret a => rfl
  | fail e => rfl
  | cmd c k ih =>
      simp only [bind, run]
      split
      · rfl
      · next b s' _ => exact ih b s'

theorem run_bind_ok {p : Prog C E α} {f : α → Prog C E β} {s s' : σ} {a : α}
    (h : p.run step s = .ok (a, s')) : (p >>= f).run step s = (f a).run step s' := by
  rw [run_bind, h]

theorem run_bind_error {p : Prog C E α} {f : α → Prog C E β} {s : σ} {e : E}
    (h : p.run step s = .error e) : (p >>= f).run step s = .error e := by
  rw [run_bind, h]

theorem run_call_bind_ok {c : C α} {f : α → Prog C E β} {s s' : σ} {a : α}
    (h : step _ c s = .ok (a, s')) : (call c >>= f).run step s = (f a).run step s' := by
  show (Prog.cmd c fun b => (Prog.ret b).bind f).run step s = _
  rw [run, h]
  rfl

theorem run_call_bind_error {c : C α} {f : α → Prog C E β} {s : σ} {e : E}
    (h : step _ c s = .error e) : (call c >>= f).run step s = .error e := by
  show (Prog.cmd c fun b => (Prog.ret b).bind f).run step s = _
  rw [run, h]

/-- **Simulation.** If a second machine can follow every command under
conditions on both, it follows every run along which they are met. -/
theorem run_sim {τ : Type*} {step' : ∀ β, C β → τ → Except E (β × τ)}
    {good : ∀ β, C β → σ → Prop} {good' : ∀ β, C β → τ → Prop} {R : σ → τ → Prop}
    (hstep : ∀ β (c : C β) s t b s', R s t → good β c s → good' β c t →
      step β c s = .ok (b, s') → ∃ t', step' β c t = .ok (b, t') ∧ R s' t')
    {p : Prog C E α} : ∀ {s s' : σ} {t : τ} {a : α}, R s t → p.Along step good s →
      p.Along step' good' t → p.run step s = .ok (a, s') →
      ∃ t', p.run step' t = .ok (a, t') ∧ R s' t' := by
  induction p with
  | ret a =>
      intro s s' t a' hR _ _ h
      obtain ⟨rfl, rfl⟩ := Prod.mk.inj (Except.ok.inj h)
      exact ⟨t, rfl, hR⟩
  | fail e =>
      intro s s' t a hR _ _ h
      simp [run] at h
  | cmd c k ih =>
      intro s s' t a hR halong halong' h
      obtain ⟨hgood, hrest⟩ := halong
      obtain ⟨hgood', hrest'⟩ := halong'
      rw [run] at h
      split at h
      · simp at h
      · next b s₁ hs₁ =>
          obtain ⟨t₁, ht₁, hR₁⟩ := hstep _ c s t b s₁ hR hgood hgood' hs₁
          obtain ⟨t', ht', hR'⟩ := ih b hR₁ (hrest b s₁ hs₁) (hrest' b t₁ ht₁) h
          refine ⟨t', ?_, hR'⟩
          rw [run, ht₁]
          exact ht'

end Run

end Prog

end StorageEngine.Lib
