import Mathlib

/-!
Runs of a partial deterministic machine.

A machine is a step function `step : ι → σ → Option σ`: the input `ι` is
what the environment asks for, and a step without a value is a call that
does not complete. A property of a run may look at the inputs already
served, which are kept latest first. `Along C` says that the condition
`C` held before every completed step, `Throughout P` that `P` holds at
every state the run passes through. The rules below turn one step lemma
into a statement about every run.
-/

namespace StorageEngine.Lib

variable {ι σ : Type*}

/-- Serve the inputs in order, stopping without a value at the first one
that does not complete. -/
def run (step : ι → σ → Option σ) : List ι → σ → Option σ
  | [], s => some s
  | i :: is, s => (step i s).bind (run step is)

/-- The condition `C` holds before each completed step of the run that
starts in `s` after the inputs `hist`. -/
def Along (step : ι → σ → Option σ) (C : List ι → ι → σ → Prop) :
    List ι → List ι → σ → Prop
  | _, [], _ => True
  | hist, i :: is, s => ∀ s', step i s = some s' →
      C hist i s ∧ Along step C (i :: hist) is s'

/-- The condition `C` holds before each step of the run, the one that does
not complete included. -/
def Before (step : ι → σ → Option σ) (C : List ι → ι → σ → Prop) :
    List ι → List ι → σ → Prop
  | _, [], _ => True
  | hist, i :: is, s => C hist i s ∧ ∀ s', step i s = some s' →
      Before step C (i :: hist) is s'

/-- The property `P` holds at every state of the run, the first one
included. -/
def Throughout (step : ι → σ → Option σ) (P : List ι → σ → Prop) :
    List ι → List ι → σ → Prop
  | hist, [], s => P hist s
  | hist, i :: is, s => P hist s ∧ ∀ s', step i s = some s' →
      Throughout step P (i :: hist) is s'

section Rules

variable {step : ι → σ → Option σ} {C : List ι → ι → σ → Prop}
  {P Q : List ι → σ → Prop}

@[simp] theorem run_nil (s : σ) : run step [] s = some s := rfl

@[simp] theorem run_cons (i : ι) (is : List ι) (s : σ) :
    run step (i :: is) s = (step i s).bind (run step is) := rfl

theorem run_append (is js : List ι) (s : σ) :
    run step (is ++ js) s = (run step is s).bind (run step js) := by
  induction is generalizing s with
  | nil => rfl
  | cons i is ih => cases h : step i s <;> simp [h, ih]

instance decidableAlong [∀ hist i s, Decidable (C hist i s)] :
    ∀ (hist is : List ι) (s : σ), Decidable (Along step C hist is s)
  | _, [], _ => isTrue trivial
  | hist, i :: is, s =>
      match hs : step i s with
      | none => isTrue fun s' hs' => by simp [hs] at hs'
      | some s' =>
          haveI := decidableAlong (i :: hist) is s'
          decidable_of_iff (C hist i s ∧ Along step C (i :: hist) is s') (by simp [Along, hs])

instance decidableBefore [∀ hist i s, Decidable (C hist i s)] :
    ∀ (hist is : List ι) (s : σ), Decidable (Before step C hist is s)
  | _, [], _ => isTrue trivial
  | hist, i :: is, s =>
      match hs : step i s with
      | none => decidable_of_iff (C hist i s) (by simp [Before, hs])
      | some s' =>
          haveI := decidableBefore (i :: hist) is s'
          decidable_of_iff (C hist i s ∧ Before step C (i :: hist) is s') (by simp [Before, hs])

theorem along_true (hist is : List ι) (s : σ) : Along step (fun _ _ _ => True) hist is s := by
  induction is generalizing hist s with
  | nil => trivial
  | cons i is ih => exact fun s' _ => ⟨trivial, ih (i :: hist) s'⟩

theorem Before.along {is : List ι} : ∀ {hist : List ι} {s : σ},
    Before step C hist is s → Along step C hist is s := by
  induction is with
  | nil => exact fun _ => trivial
  | cons i is ih => exact fun h s' hs' => ⟨h.1, ih (h.2 s' hs')⟩

theorem Before.mono {C' : List ι → ι → σ → Prop} (hC : ∀ hist i s, C hist i s → C' hist i s)
    {is : List ι} : ∀ {hist : List ι} {s : σ}, Before step C hist is s →
      Before step C' hist is s := by
  induction is with
  | nil => exact fun _ => trivial
  | cons i is ih => exact fun h => ⟨hC _ _ _ h.1, fun s' hs' => ih (h.2 s' hs')⟩

theorem Along.of_forall {is : List ι} : ∀ {hist : List ι} {s : σ},
    (∀ i ∈ is, ∀ hist s, C hist i s) → Along step C hist is s := by
  induction is with
  | nil => exact fun _ => trivial
  | cons i is ih =>
      intro hist s h s' _
      exact ⟨h i List.mem_cons_self hist s, ih fun j hj => h j (List.mem_cons_of_mem i hj)⟩

theorem Along.and {C' : List ι → ι → σ → Prop} {is : List ι} : ∀ {hist : List ι} {s : σ},
    Along step C hist is s → Along step C' hist is s →
      Along step (fun hist i s => C hist i s ∧ C' hist i s) hist is s := by
  induction is with
  | nil => exact fun _ _ => trivial
  | cons i is ih =>
      intro hist s h h' s' hs'
      obtain ⟨hc, hrest⟩ := h s' hs'
      obtain ⟨hc', hrest'⟩ := h' s' hs'
      exact ⟨⟨hc, hc'⟩, ih hrest hrest'⟩

/-- The steps after a completed part of the run meet the condition too. -/
theorem Before.of_run {is js : List ι} : ∀ {hist : List ι} {s s' : σ},
    Before step C hist (is ++ js) s → run step is s = some s' →
      Before step C (is.reverse ++ hist) js s' := by
  induction is with
  | nil =>
      intro hist s s' h hrun
      obtain rfl : s = s' := by simpa using hrun
      exact h
  | cons i is ih =>
      intro hist s s' h hrun
      rw [run_cons, Option.bind_eq_some_iff] at hrun
      obtain ⟨t, ht, hrun⟩ := hrun
      simpa using ih (h.2 t ht) hrun

/-- Conditions that agree under an invariant are met by the same runs. -/
theorem before_congr {C' : List ι → ι → σ → Prop} {J : σ → Prop}
    (hstep : ∀ i s s', J s → step i s = some s' → J s')
    (hC : ∀ hist i s, J s → (C hist i s ↔ C' hist i s)) {is : List ι} :
    ∀ {hist : List ι} {s : σ}, J s → (Before step C hist is s ↔ Before step C' hist is s) := by
  induction is with
  | nil => exact fun _ => Iff.rfl
  | cons i is ih =>
      intro hist s hJ
      refine and_congr (hC hist i s hJ) (forall_congr' fun s' => ?_)
      exact imp_congr_right fun hs' => ih (hstep i s s' hJ hs')

theorem Throughout.head {hist is : List ι} {s : σ}
    (h : Throughout step P hist is s) : P hist s := by
  cases is with
  | nil => exact h
  | cons i is => exact h.1

theorem Throughout.mono (hPQ : ∀ hist s, P hist s → Q hist s) {is : List ι} :
    ∀ {hist : List ι} {s : σ}, Throughout step P hist is s → Throughout step Q hist is s := by
  induction is with
  | nil => intro hist s h; exact hPQ hist s h
  | cons i is ih =>
      intro hist s h
      exact ⟨hPQ hist s h.1, fun s' hs' => ih (h.2 s' hs')⟩

/-- What follows at a step of the run from the condition on it, and from the
states on both of its sides. -/
theorem Throughout.before {C' : List ι → ι → σ → Prop}
    (hC : ∀ hist i s, P hist s → (∀ s', step i s = some s' → P (i :: hist) s') →
      C hist i s → C' hist i s) {is : List ι} :
    ∀ {hist : List ι} {s : σ}, Throughout step P hist is s → Before step C hist is s →
      Before step C' hist is s := by
  induction is with
  | nil => exact fun _ _ => trivial
  | cons i is ih =>
      intro hist s hP h
      refine ⟨hC hist i s hP.1 (fun s' hs' => (hP.2 s' hs').head) h.1, fun s' hs' => ?_⟩
      exact ih (hP.2 s' hs') (h.2 s' hs')

/-- The property holds throughout what is left after a completed part of the
run. -/
theorem Throughout.of_run {is js : List ι} : ∀ {hist : List ι} {s s' : σ},
    Throughout step P hist (is ++ js) s → run step is s = some s' →
      Throughout step P (is.reverse ++ hist) js s' := by
  induction is with
  | nil =>
      intro hist s s' h hrun
      obtain rfl : s = s' := by simpa using hrun
      exact h
  | cons i is ih =>
      intro hist s s' h hrun
      rw [run_cons, Option.bind_eq_some_iff] at hrun
      obtain ⟨t, ht, hrun⟩ := hrun
      simpa using ih (h.2 t ht) hrun

/-- The last state of a completed run is one of its states. -/
theorem Throughout.last {is : List ι} {hist : List ι} {s s' : σ}
    (h : Throughout step P hist is s) (hrun : run step is s = some s') :
    P (is.reverse ++ hist) s' := by
  rw [← List.append_nil is] at h
  exact h.of_run hrun

/-- **The conditional invariant rule.** An invariant that every step
taken under the condition keeps holds throughout every run along which
the condition is met. -/
theorem throughout_of_along (hstep : ∀ hist i s s', P hist s → C hist i s →
      step i s = some s' → P (i :: hist) s') {is : List ι} :
    ∀ {hist : List ι} {s : σ}, P hist s → Along step C hist is s →
      Throughout step P hist is s := by
  induction is with
  | nil => intro hist s hP _; exact hP
  | cons i is ih =>
      intro hist s hP hC
      refine ⟨hP, fun s' hs' => ?_⟩
      obtain ⟨hc, hrest⟩ := hC s' hs'
      exact ih (hstep hist i s s' hP hc hs') hrest

/-- **The exact rule.** Where, under the invariant, a completed step
keeps the property exactly when it meets the condition, the property
holds throughout a run exactly when the condition is met along it. -/
theorem throughout_iff_along
    (hinv : ∀ hist i s s', P hist s → C hist i s → step i s = some s' → P (i :: hist) s')
    (hPQ : ∀ hist s, P hist s → Q hist s)
    (hback : ∀ hist i s s', P hist s → step i s = some s' → Q (i :: hist) s' → C hist i s)
    {is : List ι} : ∀ {hist : List ι} {s : σ}, P hist s →
      (Throughout step Q hist is s ↔ Along step C hist is s) := by
  induction is with
  | nil => intro hist s hP; exact ⟨fun _ => trivial, fun _ => hPQ hist s hP⟩
  | cons i is ih =>
      intro hist s hP
      constructor
      · rintro ⟨-, hrest⟩ s' hs'
        have hc := hback hist i s s' hP hs' (hrest s' hs').head
        exact ⟨hc, (ih (hinv hist i s s' hP hc hs')).mp (hrest s' hs')⟩
      · intro hC
        refine ⟨hPQ hist s hP, fun s' hs' => ?_⟩
        obtain ⟨hc, hrest⟩ := hC s' hs'
        exact (ih (hinv hist i s s' hP hc hs')).mpr hrest

/-- The invariant rule: what holds first and is kept by every step holds
at the end of every completed run. -/
theorem run_invariant {J : σ → Prop} (hstep : ∀ i s s', J s → step i s = some s' → J s')
    {is : List ι} : ∀ {s s' : σ}, J s → run step is s = some s' → J s' := by
  induction is with
  | nil =>
      intro s s' hJ hrun
      obtain rfl : s = s' := by simpa using hrun
      exact hJ
  | cons i is ih =>
      intro s s' hJ hrun
      rw [run_cons, Option.bind_eq_some_iff] at hrun
      obtain ⟨t, ht, hrun⟩ := hrun
      exact ih (hstep i s t hJ ht) hrun

end Rules

end StorageEngine.Lib
