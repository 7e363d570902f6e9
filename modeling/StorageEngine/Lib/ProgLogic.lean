import StorageEngine.Lib.Prog

/-!
Reasoning about the runs of a program.

`Ensures good post` says two things about a run: `good` is met at every
command of it, and what it ends with meets `post`. A run that fails ends with
nothing, so the judgement is about partial correctness; it goes through a
program command by command, and a run that is known to complete may be put in
for a part of it. An auditor watches a machine: it keeps a log of the commands
that were carried out, and changes nothing about the run.
-/

namespace StorageEngine.Lib.Prog

universe u v

variable {C : Type → Type} {E α β : Type} {σ : Type u}

section Judgement

variable (step : ∀ β, C β → σ → Except E (β × σ)) (good : ∀ β, C β → σ → Prop)

def Ensures (post : α → σ → Prop) : Prog C E α → σ → Prop
  | .ret a, s => post a s
  | .fail _, _ => True
  | .cmd c k, s =>
      good _ c s ∧ ∀ b s', step _ c s = .ok (b, s') → (k b).Ensures post s'

variable {step good} {post : α → σ → Prop} {s : σ}

theorem ensures_pure {a : α} (h : post a s) :
    (pure a : Prog C E α).Ensures step good post s := h

/-- One command, and the rest from each state it may lead to. -/
theorem ensures_call_bind {c : C β} {f : β → Prog C E α} (hgood : good _ c s)
    (hrest : ∀ b s', step _ c s = .ok (b, s') → (f b).Ensures step good post s') :
    (call c >>= f).Ensures step good post s := ⟨hgood, hrest⟩

/-- The judgement, read off the whole run. -/
theorem ensures_iff {p : Prog C E α} : ∀ {s : σ}, p.Ensures step good post s ↔
    p.Along step good s ∧ ∀ a s', p.run step s = .ok (a, s') → post a s' := by
  induction p with
  | ret a =>
      intro s
      refine ⟨fun h => ⟨trivial, fun a' s' hrun => ?_⟩, fun h => h.2 a s rfl⟩
      obtain ⟨rfl, rfl⟩ := Prod.mk.inj (Except.ok.inj hrun)
      exact h
  | fail e =>
      intro s
      refine ⟨fun _ => ⟨trivial, fun a s' hrun => ?_⟩, fun _ => trivial⟩
      simp [run] at hrun
  | cmd c k ih =>
      intro s
      constructor
      · rintro ⟨hgood, hrest⟩
        refine ⟨⟨hgood, fun b s' hs => (ih b |>.mp (hrest b s' hs)).1⟩, fun a s' hrun => ?_⟩
        rw [run] at hrun
        split at hrun
        · simp at hrun
        · next b s₁ hs => exact (ih b |>.mp (hrest b s₁ hs)).2 a s' hrun
      · rintro ⟨⟨hgood, hrest⟩, hpost⟩
        refine ⟨hgood, fun b s' hs => (ih b).mpr ⟨hrest b s' hs, fun a s'' hrun => ?_⟩⟩
        apply hpost
        rw [run, hs]
        exact hrun

theorem Ensures.mono {post' : α → σ → Prop} {p : Prog C E α}
    (h : p.Ensures step good post s) (hpost : ∀ a s', post a s' → post' a s') :
    p.Ensures step good post' s := by
  obtain ⟨halong, hends⟩ := ensures_iff.mp h
  exact ensures_iff.mpr ⟨halong, fun a s' hrun => hpost a s' (hends a s' hrun)⟩

theorem ensures_bind {p : Prog C E β} {f : β → Prog C E α} :
    ∀ {s : σ}, p.Ensures step good (fun b s' => (f b).Ensures step good post s') s →
      (p >>= f).Ensures step good post s := by
  show ∀ {s : σ}, _ → (p.bind f).Ensures step good post s
  induction p with
  | ret b => exact fun h => h
  | fail e => exact fun _ => trivial
  | cmd c k ih =>
      intro s h
      obtain ⟨hgood, hrest⟩ := h
      exact ⟨hgood, fun b s' hs => ih b (hrest b s' hs)⟩

/-- A first part that is known to complete. -/
theorem Ensures.bind_of_run {p : Prog C E β} {f : β → Prog C E α} {mid : β → σ → Prop} {b : β}
    {s' : σ} (h : p.Ensures step good mid s) (hrun : p.run step s = .ok (b, s'))
    (hrest : mid b s' → (f b).Ensures step good post s') :
    (p >>= f).Ensures step good post s := by
  obtain ⟨halong, hmid⟩ := ensures_iff.mp h
  refine ensures_bind (ensures_iff.mpr ⟨halong, fun b' s'' hrun' => ?_⟩)
  obtain ⟨rfl, rfl⟩ := Prod.mk.inj (Except.ok.inj (hrun.symm.trans hrun'))
  exact hrest (hmid b s' hrun)

end Judgement

section Along

variable {step : ∀ β, C β → σ → Except E (β × σ)} {good good' : ∀ β, C β → σ → Prop}

theorem Along.mono {p : Prog C E α} : ∀ {s : σ}, p.Along step good s →
    (∀ β c s, good β c s → good' β c s) → p.Along step good' s := by
  induction p with
  | ret a => exact fun _ _ => trivial
  | fail e => exact fun _ _ => trivial
  | cmd c k ih =>
      intro s h hgood
      exact ⟨hgood _ c s h.1, fun b s' hs => ih b (h.2 b s' hs) hgood⟩

theorem Along.and {p : Prog C E α} : ∀ {s : σ}, p.Along step good s → p.Along step good' s →
    p.Along step (fun β c s => good β c s ∧ good' β c s) s := by
  induction p with
  | ret a => exact fun _ _ => trivial
  | fail e => exact fun _ _ => trivial
  | cmd c k ih =>
      intro s h h'
      exact ⟨⟨h.1, h'.1⟩, fun b s' hs => ih b (h.2 b s' hs) (h'.2 b s' hs)⟩

/-- **A quantity that never falls** is along a run at most what it is at its
end. -/
theorem along_le {Φ : σ → ℕ} (hstep : ∀ β (c : C β) s b s', step β c s = .ok (b, s') → Φ s ≤ Φ s')
    {p : Prog C E α} : ∀ {s s' : σ} {a : α}, p.run step s = .ok (a, s') →
      Φ s ≤ Φ s' ∧ p.Along step (fun _ _ s₁ => Φ s₁ ≤ Φ s') s := by
  induction p with
  | ret a =>
      intro s s' a' hrun
      obtain ⟨-, rfl⟩ := Prod.mk.inj (Except.ok.inj hrun)
      exact ⟨le_rfl, trivial⟩
  | fail e =>
      intro s s' a hrun
      simp [run] at hrun
  | cmd c k ih =>
      intro s s' a hrun
      rw [run] at hrun
      split at hrun
      · simp at hrun
      · next b s₁ hs =>
          obtain ⟨hle, halong⟩ := ih b hrun
          have hfirst := (hstep _ c s b s₁ hs).trans hle
          refine ⟨hfirst, hfirst, fun b' s₂ hs' => ?_⟩
          obtain ⟨rfl, rfl⟩ := Prod.mk.inj (Except.ok.inj (hs.symm.trans hs'))
          exact halong

/-- **Simulation, with progress.** Where each command finds what the second
machine asks of it, the whole run does, and the second machine follows. -/
theorem run_sim_along {τ : Type v} {step' : ∀ β, C β → τ → Except E (β × τ)}
    {good : ∀ β, C β → σ → Prop} {good' : ∀ β, C β → τ → Prop} {R : σ → τ → Prop}
    (hstep : ∀ β (c : C β) s t b s', R s t → good β c s → step β c s = .ok (b, s') →
      good' β c t ∧ ∃ t', step' β c t = .ok (b, t') ∧ R s' t')
    {p : Prog C E α} : ∀ {s s' : σ} {t : τ} {a : α}, R s t → p.Along step good s →
      p.run step s = .ok (a, s') →
      p.Along step' good' t ∧ ∃ t', p.run step' t = .ok (a, t') ∧ R s' t' := by
  induction p with
  | ret a =>
      intro s s' t a' hR _ hrun
      obtain ⟨rfl, rfl⟩ := Prod.mk.inj (Except.ok.inj hrun)
      exact ⟨trivial, t, rfl, hR⟩
  | fail e =>
      intro s s' t a hR _ hrun
      simp [run] at hrun
  | cmd c k ih =>
      intro s s' t a hR halong hrun
      obtain ⟨hgood, hrest⟩ := halong
      rw [run] at hrun
      split at hrun
      · simp at hrun
      · next b s₁ hs =>
          obtain ⟨hgood', t₁, ht₁, hR₁⟩ := hstep _ c s t b s₁ hR hgood hs
          obtain ⟨halong', t', hrun', hR'⟩ := ih b hR₁ (hrest b s₁ hs) hrun
          refine ⟨⟨hgood', fun b' t₂ ht₂ => ?_⟩, t', ?_, hR'⟩
          · obtain ⟨rfl, rfl⟩ := Prod.mk.inj (Except.ok.inj (ht₁.symm.trans ht₂))
            exact halong'
          · rw [run, ht₁]
            exact hrun'

end Along

/-! ### Auditors -/

section Audit

variable {Λ : Type v} (step : ∀ β, C β → σ → Except E (β × σ)) (log : ∀ β, C β → Λ → Λ)

/-- The machine with a log of its commands. -/
def audited : ∀ β, C β → σ × Λ → Except E (β × σ × Λ)
  | β, c, (s, l) =>
      match step β c s with
      | .error e => .error e
      | .ok (b, s') => .ok (b, s', log β c l)

variable {step log} {s s' : σ} {l : Λ}

theorem audited_eq_ok {c : C β} {b : β} {x : σ × Λ} :
    audited step log β c (s, l) = .ok (b, x) ↔
      step β c s = .ok (b, x.1) ∧ x.2 = log β c l := by
  obtain ⟨s', l'⟩ := x
  rw [audited]
  split
  · next e hs => simp [hs]
  · next b' s'' hs => simp [hs, and_assoc, eq_comm]

theorem run_audited (log : ∀ β, C β → Λ → Λ) {p : Prog C E α} :
    ∀ {s s' : σ} (l : Λ) {a : α},
    p.run step s = .ok (a, s') → ∃ l', p.run (audited step log) (s, l) = .ok (a, s', l') := by
  induction p with
  | ret a =>
      intro s s' l a' hrun
      obtain ⟨rfl, rfl⟩ := Prod.mk.inj (Except.ok.inj hrun)
      exact ⟨l, rfl⟩
  | fail e =>
      intro s s' l a hrun
      simp [run] at hrun
  | cmd c k ih =>
      intro s s' l a hrun
      rw [run] at hrun
      split at hrun
      · simp at hrun
      · next b s₁ hs =>
          have haudit : audited step log _ c (s, l) = .ok (b, s₁, log _ c l) :=
            audited_eq_ok.mpr ⟨hs, rfl⟩
          obtain ⟨l', hrun'⟩ := ih b (log _ c l) hrun
          refine ⟨l', ?_⟩
          rw [run, haudit]
          exact hrun'

/-- What an audit finds to hold of the machine holds without it. -/
theorem Along.of_audited {good : ∀ β, C β → σ → Prop} {p : Prog C E α} : ∀ {s : σ} {l : Λ},
    p.Along (audited step log) (fun β c x => good β c x.1) (s, l) → p.Along step good s := by
  induction p with
  | ret a => exact fun _ => trivial
  | fail e => exact fun _ => trivial
  | cmd c k ih =>
      intro s l h
      refine ⟨h.1, fun b s' hs => ih b (h.2 b (s', log _ c l) (audited_eq_ok.mpr ⟨hs, rfl⟩))⟩

end Audit

end StorageEngine.Lib.Prog
