import StorageEngine.Lib.Prog

/-!
Programs carried out by programs.

A handler carries out each command of a program by a program over other
commands, and has a state of its own. Where the handler on a machine does what
a second machine does, so does every program that is handled; and what is met
along the run of the program, command by command, is met along the run of the
handled one.
-/

namespace StorageEngine.Lib.Prog

universe u v

variable {C D : Type → Type} {E α β : Type} {σ : Type} {δ : Type u} {τ : Type v}

/-- A program with its commands carried out by a handler. -/
def handle (h : ∀ β, C β → σ → Prog D E (β × σ)) : Prog C E α → σ → Prog D E (α × σ)
  | .ret a, s => .ret (a, s)
  | .fail e, _ => .fail e
  | .cmd c k, s => (h _ c s).bind fun r => (k r.1).handle h r.2

section Along

variable {step : ∀ β, D β → δ → Except E (β × δ)} {good : ∀ β, D β → δ → Prop}

/-- A run of two parts. -/
theorem along_bind {p : Prog D E α} {f : α → Prog D E β} : ∀ {d : δ}, p.Along step good d →
    (∀ a d', p.run step d = .ok (a, d') → (f a).Along step good d') →
    (p.bind f).Along step good d := by
  induction p with
  | ret a => exact fun _ h => h a _ rfl
  | fail e => exact fun _ _ => trivial
  | cmd c k ih =>
      intro d hp hf
      refine ⟨hp.1, fun b d' hd => ih b (hp.2 b d' hd) fun a d'' hrun => hf a d'' ?_⟩
      rw [run, hd]
      exact hrun

end Along

section Simulation

variable {machine : ∀ β, C β → σ → Except E (β × σ)} {machine' : ∀ β, C β → τ → Except E (β × τ)}
  {good : ∀ β, C β → σ → Prop} {good' good'' : ∀ β, C β → τ → Prop} {R : σ → τ → Prop}

/-- What a simulation tells of the commands of the second machine. -/
theorem along_sim (hstep : ∀ β (c : C β) s t b s', R s t → good β c s → good' β c t →
      machine β c s = .ok (b, s') →
      good'' β c t ∧ ∃ t', machine' β c t = .ok (b, t') ∧ R s' t')
    {p : Prog C E α} : ∀ {s s' : σ} {t : τ} {a : α}, R s t → p.Along machine good s →
      p.Along machine' good' t → p.run machine s = .ok (a, s') →
      p.Along machine' good'' t := by
  induction p with
  | ret a => exact fun _ _ _ _ => trivial
  | fail e => exact fun _ _ _ _ => trivial
  | cmd c k ih =>
      intro s s' t a hR halong halong' hrun
      rw [run] at hrun
      split at hrun
      · simp at hrun
      · next b s₁ hs =>
          obtain ⟨hgood, t₁, ht₁, hR₁⟩ := hstep _ c s t b s₁ hR halong.1 halong'.1 hs
          refine ⟨hgood, fun b' t₂ ht₂ => ?_⟩
          obtain ⟨rfl, rfl⟩ := Prod.mk.inj (Except.ok.inj (ht₁.symm.trans ht₂))
          exact ih b hR₁ (halong.2 b s₁ hs) (halong'.2 b t₁ ht₁) hrun

end Simulation

section Handle

variable {machine : ∀ β, C β → τ → Except E (β × τ)} {step : ∀ β, D β → δ → Except E (β × δ)}
  {h : ∀ β, C β → σ → Prog D E (β × σ)} {join : σ → δ → τ}

/-- **A handler that does what a machine does, command by command**, does so
for every program. -/
theorem run_handle (hstep : ∀ β (c : C β) s d, machine β c (join s d) =
      ((h β c s).run step d).map fun r => (r.1.1, join r.1.2 r.2)) {p : Prog C E α} :
    ∀ {s : σ} {d : δ}, p.run machine (join s d) =
      ((p.handle h s).run step d).map fun r => (r.1.1, join r.1.2 r.2) := by
  induction p with
  | ret a => exact rfl
  | fail e => exact rfl
  | cmd c k ih =>
      intro s d
      rw [run, hstep]
      show _ = ((h _ c s >>= fun r => (k r.1).handle h r.2).run step d).map _
      rw [run_bind]
      cases (h _ c s).run step d with
      | error e => rfl
      | ok r => exact ih r.1.1

theorem along_handle {good : ∀ β, C β → τ → Prop} {good' : ∀ β, D β → δ → Prop}
    (hstep : ∀ β (c : C β) s d, machine β c (join s d) =
      ((h β c s).run step d).map fun r => (r.1.1, join r.1.2 r.2))
    (hgood : ∀ β (c : C β) s d, good β c (join s d) → (h β c s).Along step good' d)
    {p : Prog C E α} : ∀ {s : σ} {d : δ}, p.Along machine good (join s d) →
      (p.handle h s).Along step good' d := by
  induction p with
  | ret a => exact fun _ => trivial
  | fail e => exact fun _ => trivial
  | cmd c k ih =>
      intro s d halong
      apply along_bind (hgood _ c s d halong.1)
      rintro ⟨b, s'⟩ d' hrun
      apply ih b
      apply halong.2
      rw [hstep, hrun]
      rfl

end Handle

end StorageEngine.Lib.Prog
