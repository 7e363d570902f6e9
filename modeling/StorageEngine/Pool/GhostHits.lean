import StorageEngine.Pool.TargetSize

/-!
What a ghost hit does to the target size.

It is to move the target size towards the list whose ghost was hit, by one or
by the quotient of the ghost lengths, whichever is more, up to
`replacer_size` or down to zero. A step that would pass its end is dropped
and not cut off there; and where the step is one, the last position before
the end is only given up if the ghost lists are equally long.
-/

namespace StorageEngine

open Lib

theorem Build.addU32_lt {B : Build} {x y z : ℕ} (h : B.addU32 x y = .ok z) : z < 2 ^ 32 := by
  rw [Build.addU32] at h
  split at h
  · next hlt =>
      obtain rfl := Except.ok.inj h
      exact hlt
  split at h
  · simp at h
  · obtain rfl := Except.ok.inj h
    exact Nat.mod_lt _ (by decide)

theorem Build.subU32_lt {B : Build} {x y z : ℕ} (hx : x < 2 ^ 32) (h : B.subU32 x y = .ok z) :
    z < 2 ^ 32 := by
  rw [Build.subU32] at h
  split at h
  · obtain rfl := Except.ok.inj h
    omega
  split at h
  · simp at h
  · obtain rfl := Except.ok.inj h
    omega

namespace ArcReplacer

/-- The access makes the target size larger, by one or the quotient of the
ghost lengths, up to `c`. -/
def Raises (B : Build) (c : ℕ) (r : ArcReplacer) (f : FrameId) (p : PageId) : Prop :=
  ∃ r', r.recordAccess B f p = .ok r' ∧ r.mruTargetSize < r'.mruTargetSize ∧
    r'.mruTargetSize =
      min c (r.mruTargetSize + max 1 (r.mfuGhost.length / r.mruGhost.length))

/-- The access makes it smaller, by one or the quotient, down to zero. -/
def Lowers (B : Build) (r : ArcReplacer) (f : FrameId) (p : PageId) : Prop :=
  ∃ r', r.recordAccess B f p = .ok r' ∧ r'.mruTargetSize < r.mruTargetSize ∧
    r'.mruTargetSize = r.mruTargetSize - max 1 (r.mruGhost.length / r.mfuGhost.length)

/-- A ghost hit of a page without an entry moves the target size, where there
is room on that side. -/
def GhostHitMoves (B : Build) (c : ℕ) (r : ArcReplacer) (f : FrameId) (p : PageId) : Prop :=
  (f, p) ∉ r.mru ++ r.mfu →
    (p ∈ r.mruGhost → r.mruTargetSize < c → r.Raises B c f p) ∧
    (p ∈ r.mfuGhost → 1 ≤ r.mruTargetSize ∧ r.mruTargetSize ≤ c → r.Lowers B f p)

/-- The step up ends at or below `c`; one that is a quotient is added as a
`u32`. -/
def RaiseFits (c : ℕ) (r : ArcReplacer) : Prop :=
  if r.mfuGhost.length ≤ r.mruGhost.length then
    r.mruTargetSize + 1 < c ∨ r.mfuGhost.length = r.mruGhost.length
  else
    r.mruTargetSize + r.mfuGhost.length / r.mruGhost.length ≤ c ∨
      r.mruTargetSize + r.mfuGhost.length / r.mruGhost.length % 2 ^ 32 = c

/-- The step down ends at or above zero. -/
def LowerFits (r : ArcReplacer) : Prop :=
  if r.mruGhost.length ≤ r.mfuGhost.length then
    1 < r.mruTargetSize ∨ r.mruGhost.length = r.mfuGhost.length
  else
    r.mruGhost.length / r.mfuGhost.length ≤ r.mruTargetSize ∨
      r.mruGhost.length / r.mfuGhost.length % 2 ^ 32 = r.mruTargetSize

/-- At the upper end, a step up that wraps around at 2^32 lands where the step
down is to. -/
def WrapsDown (B : Build) (c : ℕ) (r : ArcReplacer) : Prop :=
  B.overflowChecks = false ∧ r.mruTargetSize = c ∧
    if r.mfuGhost.length ≤ r.mruGhost.length then
      c = 2 ^ 32 - 1 ∧ c ≤ r.mruGhost.length / r.mfuGhost.length
    else r.mfuGhost.length / r.mruGhost.length % 2 ^ 32 = 2 ^ 32 - 1

/-- The condition under which a ghost hit moves the target size: `c` is a
`u32` and the step does not pass the end. A page in both ghost lists is a hit
in `mru_ghost`, and nothing but a wrap takes the target size down then. -/
def StepFits (B : Build) (c : ℕ) (r : ArcReplacer) (f : FrameId) (p : PageId) : Prop :=
  (f, p) ∉ r.mru ++ r.mfu →
    (p ∈ r.mruGhost → r.mruTargetSize < c → c < 2 ^ 32 ∧ r.RaiseFits c) ∧
    (p ∈ r.mfuGhost → 1 ≤ r.mruTargetSize ∧ r.mruTargetSize ≤ c →
      if p ∈ r.mruGhost then r.WrapsDown B c else r.LowerFits)

/-- `replacer_size` is what the replacer was made with, and the target size is
a `u32`. -/
def Sized (c : ℕ) (r : ArcReplacer) : Prop := r.replacerSize = c ∧ r.mruTargetSize < 2 ^ 32

section GhostHits

variable {B : Build} {c t : ℕ} {r r' : ArcReplacer} {f : FrameId} {p : PageId}

/-! ### The two steps -/

/-- A quotient that is added ends where it is to, unless it passes the end. -/
theorem addQuotient_iff {target size q : ℕ} (hsize : size < 2 ^ 32) (hlt : target < size) :
    (∃ t, (B.addU32 target (q % 2 ^ 32) >>= fun t =>
        if t ≤ size then .ok t else .ok target) = .ok t ∧
        target < t ∧ t = min size (target + max 1 q)) ↔
      1 ≤ q ∧ (target + q ≤ size ∨ target + q % 2 ^ 32 = size) := by
  have hmod := Nat.mod_le q (2 ^ 32)
  by_cases hfits : target + q % 2 ^ 32 < 2 ^ 32
  · rw [B.addU32_eq hfits, ok_bind]
    by_cases hle : target + q % 2 ^ 32 ≤ size
    · simp only [hle, if_true, Except.ok.injEq, exists_eq_left']
      omega
    · simp only [hle, if_false, Except.ok.injEq, exists_eq_left']
      omega
  · constructor
    · rintro ⟨t, ht, hup, -⟩
      obtain ⟨t', ht', ht⟩ := bind_eq_ok.mp ht
      rw [Build.addU32, if_neg hfits] at ht'
      split at ht'
      · simp at ht'
      -- a sum that wrapped around is below the one it was added to
      · obtain rfl := Except.ok.inj ht'
        split at ht
        · obtain rfl := Except.ok.inj ht
          omega
        · obtain rfl := Except.ok.inj ht
          omega
    · omega

theorem increaseTarget_eq (hp : p ∈ r.mruGhost) (hsize : r.replacerSize < 2 ^ 32)
    (hlt : r.mruTargetSize < r.replacerSize) :
    r.increaseTarget B =
      if r.mfuGhost.length ≤ r.mruGhost.length ∧ r.mruTargetSize + 1 < r.replacerSize then
        .ok (r.mruTargetSize + 1)
      else B.addU32 r.mruTargetSize (r.mfuGhost.length / r.mruGhost.length % 2 ^ 32) >>= fun t =>
        if t ≤ r.replacerSize then .ok t else .ok r.mruTargetSize := by
  have hquot := divAsU32_eq (x := r.mfuGhost.length) (List.length_pos_of_mem hp).ne'
  have hone := B.addU32_eq (x := r.mruTargetSize) (y := 1) (by omega)
  simp only [increaseTarget, hquot, hone, toU32_eq hsize, ok_bind]
  have hrest : (B.addU32 r.mruTargetSize (r.mfuGhost.length / r.mruGhost.length % 2 ^ 32) >>=
      fun t => if t ≤ r.replacerSize then
        B.addU32 r.mruTargetSize (r.mfuGhost.length / r.mruGhost.length % 2 ^ 32)
        else pure r.mruTargetSize) =
      B.addU32 r.mruTargetSize (r.mfuGhost.length / r.mruGhost.length % 2 ^ 32) >>= fun t =>
        if t ≤ r.replacerSize then .ok t else .ok r.mruTargetSize := by
    cases B.addU32 r.mruTargetSize (r.mfuGhost.length / r.mruGhost.length % 2 ^ 32) with
    | error e => rfl
    | ok t => rfl
  rw [hrest]
  by_cases hle : r.mfuGhost.length ≤ r.mruGhost.length
  · simp only [hle, if_true, pure_bind, true_and, decide_eq_true_eq]
  · simp only [hle, if_false, pure_bind, false_and, Bool.false_eq_true]

/-- **When the target size goes up** as it is to. -/
theorem increaseTarget_raises_iff (hp : p ∈ r.mruGhost) (hlt : r.mruTargetSize < r.replacerSize) :
    (∃ t, r.increaseTarget B = .ok t ∧ r.mruTargetSize < t ∧ t = min r.replacerSize
        (r.mruTargetSize + max 1 (r.mfuGhost.length / r.mruGhost.length))) ↔
      r.replacerSize < 2 ^ 32 ∧ r.RaiseFits r.replacerSize := by
  have hpos := List.length_pos_of_mem hp
  by_cases hsize : r.replacerSize < 2 ^ 32
  · rw [increaseTarget_eq hp hsize hlt, RaiseFits]
    simp only [hsize, true_and]
    by_cases hle : r.mfuGhost.length ≤ r.mruGhost.length
    · have hquot : r.mfuGhost.length / r.mruGhost.length ≤ 1 := Nat.div_le_of_le_mul (by omega)
      by_cases hroom : r.mruTargetSize + 1 < r.replacerSize
      · simp only [hle, hroom, and_self, if_true, Except.ok.injEq, exists_eq_left', true_or,
          iff_true]
        omega
      · have hone : 1 ≤ r.mfuGhost.length / r.mruGhost.length ↔
            r.mruGhost.length ≤ r.mfuGhost.length := Nat.one_le_div_iff hpos
        simp only [hle, hroom, and_false, if_false, if_true, false_or, addQuotient_iff hsize hlt,
          hone]
        omega
    · have hone : 1 ≤ r.mfuGhost.length / r.mruGhost.length :=
        (Nat.one_le_div_iff hpos).mpr (by omega)
      simp only [hle, false_and, if_false, addQuotient_iff hsize hlt, hone, true_and]
  · constructor
    · rintro ⟨t, ht, -⟩
      exact absurd ((increaseTarget_ok_iff hp).mp ⟨t, ht⟩).1 hsize
    · exact fun h => absurd h.1 hsize

/-- A quotient that is taken off ends where it is to, unless it passes zero. -/
theorem subQuotient_iff {target q : ℕ} (hpos : 1 ≤ target) (hlt : target < 2 ^ 32) :
    ((if q % 2 ^ 32 ≤ target then target - q % 2 ^ 32 else target) < target ∧
        (if q % 2 ^ 32 ≤ target then target - q % 2 ^ 32 else target) = target - max 1 q) ↔
      1 ≤ q ∧ (q ≤ target ∨ q % 2 ^ 32 = target) := by
  have hmod := Nat.mod_le q (2 ^ 32)
  by_cases hle : q % 2 ^ 32 ≤ target
  · simp only [hle, if_true]
    omega
  · simp only [hle, if_false]
    omega

theorem decreaseTarget_eq (hp : p ∈ r.mfuGhost) (hpos : 1 ≤ r.mruTargetSize) :
    r.decreaseTarget B = .ok
      (if r.mruGhost.length ≤ r.mfuGhost.length ∧ 1 < r.mruTargetSize then r.mruTargetSize - 1
      else if r.mruGhost.length / r.mfuGhost.length % 2 ^ 32 ≤ r.mruTargetSize then
        r.mruTargetSize - r.mruGhost.length / r.mfuGhost.length % 2 ^ 32
      else r.mruTargetSize) := by
  have hquot := divAsU32_eq (x := r.mruGhost.length) (List.length_pos_of_mem hp).ne'
  have hone := B.subU32_eq hpos
  have hrest : (if r.mruGhost.length / r.mfuGhost.length % 2 ^ 32 ≤ r.mruTargetSize then
      B.subU32 r.mruTargetSize (r.mruGhost.length / r.mfuGhost.length % 2 ^ 32)
      else pure r.mruTargetSize) = .ok
        (if r.mruGhost.length / r.mfuGhost.length % 2 ^ 32 ≤ r.mruTargetSize then
          r.mruTargetSize - r.mruGhost.length / r.mfuGhost.length % 2 ^ 32
        else r.mruTargetSize) := by
    split
    · next hle => exact B.subU32_eq hle
    · rfl
  have hroom : 0 < r.mruTargetSize - 1 ↔ 1 < r.mruTargetSize := by omega
  simp only [decreaseTarget, hquot, hone, ok_bind, hrest]
  by_cases hle : r.mruGhost.length ≤ r.mfuGhost.length
  · simp only [hle, if_true, pure_bind, true_and, decide_eq_true_eq, hroom]
    split
    · rfl
    · rfl
  · simp only [hle, if_false, pure_bind, false_and, Bool.false_eq_true]

/-- **When the target size goes down** as it is to. -/
theorem decreaseTarget_lowers_iff (hp : p ∈ r.mfuGhost) (hpos : 1 ≤ r.mruTargetSize)
    (hlt : r.mruTargetSize < 2 ^ 32) :
    (∃ t, r.decreaseTarget B = .ok t ∧ t < r.mruTargetSize ∧
        t = r.mruTargetSize - max 1 (r.mruGhost.length / r.mfuGhost.length)) ↔
      r.LowerFits := by
  have hghost := List.length_pos_of_mem hp
  rw [decreaseTarget_eq hp hpos, LowerFits]
  simp only [Except.ok.injEq, exists_eq_left']
  by_cases hle : r.mruGhost.length ≤ r.mfuGhost.length
  · have hquot : r.mruGhost.length / r.mfuGhost.length ≤ 1 := Nat.div_le_of_le_mul (by omega)
    by_cases hroom : 1 < r.mruTargetSize
    · simp only [hle, hroom, and_self, if_true, true_or, iff_true]
      omega
    · have hone : 1 ≤ r.mruGhost.length / r.mfuGhost.length ↔
          r.mfuGhost.length ≤ r.mruGhost.length := Nat.one_le_div_iff hghost
      simp only [hle, hroom, and_false, if_false, if_true, false_or, subQuotient_iff hpos hlt, hone]
      omega
  · have hone : 1 ≤ r.mruGhost.length / r.mfuGhost.length :=
      (Nat.one_le_div_iff hghost).mpr (by omega)
    simp only [hle, false_and, if_false, subQuotient_iff hpos hlt, hone, true_and]

theorem le_of_added {target y : ℕ} {P : Prop} [Decidable P]
    (h : (if P then Except.ok (ε := Panic) (target + y) else .ok target) = .ok t) :
    target ≤ t := by
  split at h
  · obtain rfl := Except.ok.inj h
    exact Nat.le_add_right target y
  · obtain rfl := Except.ok.inj h
    exact le_rfl

/-- A target size at its upper end only goes down by a sum that wraps. -/
theorem increaseTarget_lowers_iff (hp : p ∈ r.mruGhost)
    (hpos : 1 ≤ r.mruTargetSize) (hlt : r.mruTargetSize < 2 ^ 32)
    (hend : r.mruTargetSize = r.replacerSize) :
    (∃ t, r.increaseTarget B = .ok t ∧ t < r.mruTargetSize ∧
        t = r.mruTargetSize - max 1 (r.mruGhost.length / r.mfuGhost.length)) ↔
      r.WrapsDown B r.replacerSize := by
  have hquot := divAsU32_eq (x := r.mfuGhost.length) (List.length_pos_of_mem hp).ne'
  have hwrap : ∀ y, 2 ^ 32 ≤ r.mruTargetSize + y → B.addU32 r.mruTargetSize y =
      if B.overflowChecks then .error .overflow
      else .ok ((r.mruTargetSize + y) % 2 ^ 32) := by
    intro y hy
    rw [Build.addU32, if_neg (by omega)]
  simp only [WrapsDown, increaseTarget, hquot, ← hend, toU32_eq hlt, ok_bind, true_and]
  generalize hq : r.mfuGhost.length / r.mruGhost.length = q
  generalize hd : r.mruGhost.length / r.mfuGhost.length = d
  by_cases hle : r.mfuGhost.length ≤ r.mruGhost.length
  · simp only [hle, if_true]
    have hone : q ≤ 1 := by
      rw [← hq]
      exact Nat.div_le_of_le_mul (by omega)
    by_cases hfits : r.mruTargetSize + 1 < 2 ^ 32
    · -- no sum wraps, and the target size stays where it is
      have hstay : ¬r.mruTargetSize + 1 < r.mruTargetSize := by omega
      have hsum := B.addU32_eq (x := r.mruTargetSize) (y := q % 2 ^ 32) (by omega)
      simp only [B.addU32_eq hfits, hsum, hstay, ok_bind, pure_bind, decide_false,
        Bool.false_eq_true, if_false]
      constructor
      · rintro ⟨t, ht, hdown, -⟩
        exact absurd hdown (not_lt.mpr (le_of_added ht))
      · omega
    · rw [hwrap 1 (by omega)]
      cases hB : B.overflowChecks with
      | true => simp [bind, Except.bind]
      | false =>
          have hzero : (r.mruTargetSize + 1) % 2 ^ 32 = 0 := by omega
          have hup : 0 < r.mruTargetSize := hpos
          simp only [hzero, hup, ok_bind, pure_bind, decide_true, if_true, if_false,
            Bool.false_eq_true, Except.ok.injEq, exists_eq_left', true_and]
          omega
  · have hzero : d = 0 := by
      rw [← hd]
      exact Nat.div_eq_of_lt (by omega)
    simp only [hle, if_false, pure_bind, Bool.false_eq_true]
    by_cases hfits : r.mruTargetSize + q % 2 ^ 32 < 2 ^ 32
    · rw [B.addU32_eq hfits, ok_bind]
      constructor
      · rintro ⟨t, ht, hdown, -⟩
        exact absurd hdown (not_lt.mpr (le_of_added ht))
      · omega
    · rw [hwrap _ (not_lt.mp hfits)]
      cases hB : B.overflowChecks with
      | true => simp [bind, Except.bind]
      | false =>
          have hback : (r.mruTargetSize + q % 2 ^ 32) % 2 ^ 32 ≤ r.mruTargetSize := by omega
          simp only [hback, ok_bind, if_true, if_false, Bool.false_eq_true, Except.ok.injEq,
            exists_eq_left', true_and]
          omega

/-- The target size stays a `u32`, whichever way it is moved. -/
theorem increaseTarget_lt (hlt : r.mruTargetSize < 2 ^ 32) (h : r.increaseTarget B = .ok t) :
    t < 2 ^ 32 := by
  have hrest : (divAsU32 r.mfuGhost.length r.mruGhost.length >>= fun increase =>
      B.addU32 r.mruTargetSize increase >>= fun target =>
        toU32 r.replacerSize >>= fun size =>
          if target ≤ size then B.addU32 r.mruTargetSize increase
          else pure r.mruTargetSize) = .ok t → t < 2 ^ 32 := by
    intro h
    obtain ⟨increase, -, h⟩ := bind_eq_ok.mp h
    obtain ⟨target, -, h⟩ := bind_eq_ok.mp h
    obtain ⟨size, -, h⟩ := bind_eq_ok.mp h
    split at h
    · exact Build.addU32_lt h
    · obtain rfl := Except.ok.inj h
      exact hlt
  rw [increaseTarget] at h
  split at h
  · obtain ⟨target, -, h⟩ := bind_eq_ok.mp h
    obtain ⟨size, -, h⟩ := bind_eq_ok.mp h
    simp only [pure_bind] at h
    split at h
    · exact Build.addU32_lt h
    · exact hrest h
  · exact hrest h

theorem decreaseTarget_lt (hlt : r.mruTargetSize < 2 ^ 32) (h : r.decreaseTarget B = .ok t) :
    t < 2 ^ 32 := by
  have hrest : (divAsU32 r.mruGhost.length r.mfuGhost.length >>= fun decrease =>
      if decrease ≤ r.mruTargetSize then B.subU32 r.mruTargetSize decrease
      else pure r.mruTargetSize) = .ok t → t < 2 ^ 32 := by
    intro h
    obtain ⟨decrease, -, h⟩ := bind_eq_ok.mp h
    split at h
    · exact Build.subU32_lt hlt h
    · obtain rfl := Except.ok.inj h
      exact hlt
  rw [decreaseTarget] at h
  split at h
  · obtain ⟨target, -, h⟩ := bind_eq_ok.mp h
    simp only [pure_bind] at h
    split at h
    · exact Build.subU32_lt hlt h
    · exact hrest h
  · exact hrest h

/-! ### Ghost hits -/

/-- An access that hits `mru_ghost` does to the target size what
`increaseTarget` says. -/
theorem recordAccess_mruGhost (P : ℕ → Prop) (hmiss : (f, p) ∉ r.mru ++ r.mfu)
    (hp : p ∈ r.mruGhost) :
    (∃ r', r.recordAccess B f p = .ok r' ∧ P r'.mruTargetSize) ↔
      ∃ t, r.increaseTarget B = .ok t ∧ P t := by
  simp only [recordAccess, ← List.mem_append, hmiss, if_false, hp, if_true]
  show (∃ r', (r.increaseTarget B >>= _) = _ ∧ _) ↔ _
  constructor
  · rintro ⟨r', h, hP⟩
    obtain ⟨t, ht, h⟩ := bind_eq_ok.mp h
    obtain rfl := Except.ok.inj h
    exact ⟨t, ht, hP⟩
  · rintro ⟨t, ht, hP⟩
    exact ⟨_, bind_eq_ok.mpr ⟨t, ht, rfl⟩, hP⟩

theorem recordAccess_mfuGhost (P : ℕ → Prop) (hmiss : (f, p) ∉ r.mru ++ r.mfu)
    (hp : p ∉ r.mruGhost) (hp' : p ∈ r.mfuGhost) :
    (∃ r', r.recordAccess B f p = .ok r' ∧ P r'.mruTargetSize) ↔
      ∃ t, r.decreaseTarget B = .ok t ∧ P t := by
  simp only [recordAccess, ← List.mem_append, hmiss, if_false, hp, hp', if_true]
  show (∃ r', (r.decreaseTarget B >>= _) = _ ∧ _) ↔ _
  constructor
  · rintro ⟨r', h, hP⟩
    obtain ⟨t, ht, h⟩ := bind_eq_ok.mp h
    obtain rfl := Except.ok.inj h
    exact ⟨t, ht, hP⟩
  · rintro ⟨t, ht, hP⟩
    exact ⟨_, bind_eq_ok.mpr ⟨t, ht, rfl⟩, hP⟩

/-- **What moves the target size**, in a state of any kind. -/
theorem Sized.moves_iff (h : r.Sized c) (f : FrameId) (p : PageId) :
    r.GhostHitMoves B c f p ↔ r.StepFits B c f p := by
  obtain ⟨rfl, hlt⟩ := h
  refine forall_congr' fun hmiss => ?_
  by_cases hp : p ∈ r.mruGhost
  · simp only [hp, if_true, true_implies]
    by_cases hroom : r.mruTargetSize < r.replacerSize
    · have hraise : r.Raises B r.replacerSize f p ↔
          r.replacerSize < 2 ^ 32 ∧ r.RaiseFits r.replacerSize :=
        (recordAccess_mruGhost _ hmiss hp).trans (increaseTarget_raises_iff hp hroom)
      simp only [hroom, true_implies, hraise]
      -- a page in both ghost lists is to move the target size both ways at once
      constructor
      · rintro ⟨hfits, hlower⟩
        refine ⟨hfits, fun hp' hpos => ?_⟩
        obtain ⟨r₁, h₁, hup, -⟩ := hraise.mpr hfits
        obtain ⟨r₂, h₂, hdown, -⟩ := hlower hp' hpos
        obtain rfl := Except.ok.inj (h₁.symm.trans h₂)
        omega
      · rintro ⟨hfits, hwraps⟩
        refine ⟨hfits, fun hp' hpos => ?_⟩
        obtain ⟨-, hend, -⟩ := hwraps hp' hpos
        omega
    · simp only [hroom, false_implies, true_and]
      refine forall_congr' fun hp' => forall_congr' fun hpos => ?_
      exact (recordAccess_mruGhost _ hmiss hp).trans
        (increaseTarget_lowers_iff hp hpos.1 hlt (by omega))
  · simp only [hp, if_false, false_implies, true_and]
    refine forall_congr' fun hp' => forall_congr' fun hpos => ?_
    exact (recordAccess_mfuGhost _ hmiss hp hp').trans
      (decreaseTarget_lowers_iff hp' hpos.1 hlt)

/-! ### Along a run -/

theorem step_sized {call : ArcCall} (h : r.Sized c) (hstep : step B call r = some r') :
    r'.Sized c := by
  obtain ⟨rfl, hlt⟩ := h
  cases call with
  | recordAccess f p =>
      have hr := recordAccess_recorded (step_recordAccess.mp hstep)
      refine ⟨hr.replacerSize_eq, ?_⟩
      cases hr with
      | promote => exact hlt
      | mruGhostHit miss hit t ht => exact increaseTarget_lt hlt ht
      | mfuGhostHit miss miss₁ hit t ht => exact decreaseTarget_lt hlt ht
      | dropMruGhost => exact hlt
      | dropMfuGhost => exact hlt
      | enter => exact hlt
      | untracked => exact hlt
  | setEvictable f =>
      obtain ⟨n, -, rfl⟩ := setEvictable_eq_ok.mp (step_setEvictable.mp hstep)
      exact ⟨rfl, hlt⟩
  | evict =>
      obtain ⟨o, hevict⟩ := step_evict.mp hstep
      rcases evict_cases hevict with ⟨-, rfl, -⟩ | ⟨f, p, -, hr⟩
      · exact ⟨rfl, hlt⟩
      · exact ⟨hr.replacerSize_eq, hr.mruTargetSize_eq ▸ hlt⟩
  | remove f =>
      obtain rfl := step_remove.mp hstep
      rw [ArcReplacer.remove]
      split
      · exact ⟨rfl, hlt⟩
      · exact ⟨rfl, hlt⟩

end GhostHits

end ArcReplacer

namespace Session

open ArcReplacer (GhostHitMoves StepFits)

/-- **When a ghost hit moves the target size** towards the list whose ghost
was hit, in every state of the replacer that a pool of `n` frames brings
about, those between the calls a pool makes on it included. -/
theorem ghostHitMoves_iff (B : Build) (order : HashOrder) (n : ℕ) (dm : DiskManager)
    (calls : List PoolCall) :
    Throughout (ArcReplacer.step B)
      (fun _ r => ∀ f p, r.GhostHitMoves B n f p ↔ r.StepFits B n f p) []
      (replacerRun B order calls (.new n dm)) (.new n) := by
  have hsized : Throughout (ArcReplacer.step B) (fun _ r => r.Sized n) []
      (replacerRun B order calls (.new n dm)) (.new n) :=
    throughout_of_along (fun _ _ _ _ h _ hstep => ArcReplacer.step_sized h hstep)
      ⟨rfl, Nat.two_pow_pos 32⟩ (along_true _ _ _)
  exact hsized.mono fun _ _ h f p => h.moves_iff f p

/-- A page is read, and its guard dropped. -/
def readPage (pageId : PageId) (frameId : FrameId) : List PoolCall :=
  [.checkPage .read pageId, .dropGuard ⟨.read, pageId, frameId⟩]

/-- Four pages on two frames. -/
def stuckReads : List PoolCall :=
  [.newPage, .newPage, .newPage, .newPage] ++ readPage 0 1 ++ readPage 0 1 ++ readPage 1 0 ++
    readPage 2 0 ++ readPage 1 0 ++ readPage 3 1 ++ [.checkPage .read 2]

/-- What the pool asks of its replacer before it reads page 2 again. -/
def stuckAccesses : List ArcCall :=
  [.recordAccess 1 0, .setEvictable 1, .recordAccess 1 0, .setEvictable 1, .recordAccess 0 1,
    .setEvictable 0, .evict, .recordAccess 0 2, .setEvictable 0, .evict, .recordAccess 0 1,
    .setEvictable 0, .evict, .recordAccess 1 3, .setEvictable 1, .evict]

/-- Page 2 is in `mru_ghost` with page 3, page 0 alone in `mfu_ghost`: the
target size stays at one. -/
theorem stuckReads_stuck :
    ¬Throughout (ArcReplacer.step ⟨true⟩) (fun _ r => ∀ f p, r.GhostHitMoves ⟨true⟩ 2 f p) []
      (replacerRun ⟨true⟩ .listed stuckReads (.new 2 (.fresh DiskManager.blankFile)))
      (.new 2) := by
  intro h
  have hcalls : replacerRun ⟨true⟩ .listed stuckReads (.new 2 (.fresh DiskManager.blankFile)) =
      stuckAccesses ++ [.recordAccess 1 2] := by
    decide +kernel
  have hrun : (run (ArcReplacer.step ⟨true⟩) stuckAccesses (.new 2)).map (fun r =>
      (decide ((1, 2) ∉ r.mru ++ r.mfu), decide (2 ∈ r.mruGhost), r.mruTargetSize,
        (r.recordAccess ⟨true⟩ 1 2).toOption.map fun r => r.mruTargetSize)) =
      some (true, true, 1, some 1) := by
    decide +kernel
  rw [hcalls] at h
  obtain ⟨r, hr, hstate⟩ := Option.map_eq_some_iff.mp hrun
  simp only [Prod.mk.injEq, decide_eq_true_eq] at hstate
  obtain ⟨hmiss, hghost, htarget, haccess⟩ := hstate
  obtain ⟨r', hok, hup, -⟩ := ((h.of_run hr).head 1 2 hmiss).1 hghost (by omega)
  rw [hok] at haccess
  obtain hsame : r'.mruTargetSize = 1 := Option.some.inj haccess
  omega

end Session

end StorageEngine
