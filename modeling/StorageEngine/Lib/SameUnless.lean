import StorageEngine.Lib.Prog

/-!
Computations that are the same unless one of them fails a check.

`SameUnless e x y` says that `x` is `y`, with its failures, unless `x` fails
with `e`. It is a congruence for sequencing, so that two versions of a function
that differ in a check are related as soon as the check is. Programs are
compared command by command, and `Prog.SameUnless.run` takes them to their runs
on two machines whose commands are so related.
-/

namespace StorageEngine.Lib

universe u

variable {ε ε' : Type*} {α β : Type u}

/-- The two are the same, unless the first one fails with `e`. -/
def SameUnless (e : ε) (x y : Except ε α) : Prop := x = .error e ∨ x = y

namespace SameUnless

variable {e : ε} {x x' y y' : Except ε α}

theorem refl (x : Except ε α) : SameUnless e x x := Or.inr rfl

theorem failed (y : Except ε α) : SameUnless e (.error e) y := Or.inl rfl

theorem bind {f g : α → Except ε β} (h : SameUnless e x y) (hfg : ∀ a, SameUnless e (f a) (g a)) :
    SameUnless e (x >>= f) (y >>= g) := by
  obtain rfl | rfl := h
  · exact Or.inl rfl
  · cases x with
    | error e' => exact Or.inr rfl
    | ok a => exact hfg a

theorem next (x : Except ε α) {f g : α → Except ε β} (hfg : ∀ a, SameUnless e (f a) (g a)) :
    SameUnless e (x >>= f) (x >>= g) := (refl x).bind hfg

theorem ite {c : Prop} [Decidable c] (h : SameUnless e x y) (h' : SameUnless e x' y') :
    SameUnless e (if c then x else x') (if c then y else y') := by
  split
  · exact h
  · exact h'

theorem mapError (f : ε → ε') (h : SameUnless e x y) :
    SameUnless (f e) (x.mapError f) (y.mapError f) := by
  obtain rfl | rfl := h
  · exact Or.inl rfl
  · exact Or.inr rfl

end SameUnless

namespace Prog

variable {C : Type → Type} {E α β : Type} {σ : Type*}

/-- The programs give the same commands and end in the same way, unless the
first one fails with `e`. -/
inductive SameUnless (e : E) : Prog C E α → Prog C E α → Prop
  | ret (a : α) : SameUnless e (.ret a) (.ret a)
  | fail (e' : E) : SameUnless e (.fail e') (.fail e')
  | failed (q : Prog C E α) : SameUnless e (.fail e) q
  | cmd {γ : Type} (c : C γ) {k k' : γ → Prog C E α} (hk : ∀ b, SameUnless e (k b) (k' b)) :
      SameUnless e (.cmd c k) (.cmd c k')

namespace SameUnless

variable {e : E} {p p' q q' : Prog C E α}

theorem refl (p : Prog C E α) : SameUnless e p p := by
  induction p with
  | ret a => exact .ret a
  | fail e' => exact .fail e'
  | cmd c k ih => exact .cmd c ih

theorem bind {f g : α → Prog C E β} (h : SameUnless e p q)
    (hfg : ∀ a, SameUnless e (f a) (g a)) : SameUnless e (p >>= f) (q >>= g) := by
  induction h with
  | ret a => exact hfg a
  | fail e' => exact .fail e'
  | failed q => exact .failed _
  | cmd c hk ih => exact .cmd c ih

theorem next (p : Prog C E β) {f g : β → Prog C E α} (hfg : ∀ b, SameUnless e (f b) (g b)) :
    SameUnless e (p >>= f) (p >>= g) := (refl p).bind hfg

theorem lift {x y : Except E α} (h : Lib.SameUnless e x y) :
    SameUnless e (lift x : Prog C E α) (lift y) := by
  obtain rfl | rfl := h
  · exact .failed _
  · exact .refl _

theorem ite {c : Prop} [Decidable c] (h : SameUnless e p q) (h' : SameUnless e p' q') :
    SameUnless e (if c then p else p') (if c then q else q') := by
  split
  · exact h
  · exact h'

/-- **The runs** of the programs, on two machines. -/
theorem run {step step' : ∀ β, C β → σ → Except E (β × σ)}
    (hstep : ∀ β c s, Lib.SameUnless e (step β c s) (step' β c s)) (h : SameUnless e p q) :
    ∀ s, Lib.SameUnless e (p.run step s) (q.run step' s) := by
  induction h with
  | ret a => exact fun s => .refl _
  | fail e' => exact fun s => .refl _
  | failed q => exact fun s => .failed _
  | cmd c hk ih =>
      intro s
      rw [Prog.run, Prog.run]
      obtain hfails | hsame := hstep _ c s
      · rw [hfails]
        exact .failed _
      · rw [hsame]
        cases step' _ c s with
        | error e' => exact .refl _
        | ok r => exact ih r.1 r.2

end SameUnless

end Prog

end StorageEngine.Lib
