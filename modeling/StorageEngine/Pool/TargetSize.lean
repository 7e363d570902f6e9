import StorageEngine.Pool.ArcCalls

/-!
The target size of the replacer.

A ghost hit moves it by one or by the quotient of the two ghost lengths,
and both branches test before they move it. The test of the branch that
makes it smaller is itself a subtraction: at zero it underflows. Every other
move keeps the target size between zero and `replacer_size`.
-/

namespace StorageEngine

open Lib

namespace ArcReplacer

/-- No addition or subtraction of the call on the target size leaves `u32`,
and no division is by zero. -/
def InRange (r : ArcReplacer) : ArcCall → Prop
  | .recordAccess f p => errorOf (r.recordAccess ⟨true⟩ f p) ≠ some .overflow ∧
      errorOf (r.recordAccess ⟨true⟩ f p) ≠ some .divByZero
  | _ => True

/-- What a hit in `mru_ghost` adds to the target size, at most. -/
def increment (r : ArcReplacer) : ℕ :=
  if r.mfuGhost.length ≤ r.mruGhost.length then 1
  else r.mfuGhost.length / r.mruGhost.length % 2 ^ 32

/-- The access to the page hits `mru_ghost` with a target size next to the
end of `u32`. -/
def TargetOverflows (r : ArcReplacer) (p : PageId) : Prop :=
  p ∈ r.mruGhost ∧ 2 ^ 32 ≤ r.mruTargetSize + r.increment

/-- The access to the page hits `mfu_ghost`, the longer of the ghost lists,
while the target size is zero. -/
def TargetUnderflows (r : ArcReplacer) (p : PageId) : Prop :=
  p ∉ r.mruGhost ∧ p ∈ r.mfuGhost ∧ r.mruGhost.length ≤ r.mfuGhost.length ∧
    r.mruTargetSize = 0

instance (r : ArcReplacer) (p : PageId) : Decidable (r.TargetUnderflows p) :=
  inferInstanceAs (Decidable (_ ∧ _ ∧ _ ∧ _))

/-- An access to a page that is not tracked leaves the target size room to
move. -/
def TargetMoves (r : ArcReplacer) : ArcCall → Prop
  | .recordAccess f p => (f, p) ∉ r.mru ++ r.mfu →
      ¬r.TargetOverflows p ∧ ¬r.TargetUnderflows p
  | _ => True

section Moves

variable {B : Build} {c : ℕ} {r r' : ArcReplacer} {f : FrameId} {p : PageId}

/-- A quotient of ghost lengths that is added is at most the increment. -/
theorem quotient_le_increment (r : ArcReplacer) :
    r.mfuGhost.length / r.mruGhost.length % 2 ^ 32 ≤ r.increment := by
  rw [increment]
  split
  · next hle =>
      have hquot : r.mfuGhost.length / r.mruGhost.length ≤ 1 :=
        Nat.div_le_of_le_mul (by omega)
      exact (Nat.mod_le _ _).trans hquot
  · exact le_rfl

/-- Away from the end of `u32`, a hit in `mru_ghost` keeps the target size up
to `replacer_size`; that size may not fit in `u32` itself. -/
theorem increaseTarget_cases (hp : p ∈ r.mruGhost)
    (h : r.mruTargetSize + r.increment < 2 ^ 32) :
    r.increaseTarget B = .error .unwrap ∨ ∃ t, r.increaseTarget B = .ok t ∧
      (r.mruTargetSize ≤ r.replacerSize → t ≤ r.replacerSize) := by
  have hpos := List.length_pos_of_mem hp
  have hquot := divAsU32_eq (x := r.mfuGhost.length) hpos.ne'
  have hle := quotient_le_increment r
  have hsum := B.addU32_eq (x := r.mruTargetSize)
    (y := r.mfuGhost.length / r.mruGhost.length % 2 ^ 32) (by omega)
  by_cases hsize : r.replacerSize < 2 ^ 32
  · have hn := toU32_eq hsize
    have hrest : ∃ t, (if r.mruTargetSize + r.mfuGhost.length / r.mruGhost.length % 2 ^ 32 ≤
        r.replacerSize then Except.ok (ε := Panic)
          (r.mruTargetSize + r.mfuGhost.length / r.mruGhost.length % 2 ^ 32)
        else pure r.mruTargetSize) = .ok t ∧
          (r.mruTargetSize ≤ r.replacerSize → t ≤ r.replacerSize) := by
      split
      · next hle => exact ⟨_, rfl, fun _ => hle⟩
      · exact ⟨_, rfl, id⟩
    apply Or.inr
    simp only [increaseTarget, hn, hquot, hsum, ok_bind]
    split
    · next hghost =>
        have hone := B.addU32_eq (x := r.mruTargetSize) (y := 1)
          (by rw [increment, if_pos hghost] at h; exact h)
        simp only [hone, ok_bind, pure_bind, decide_eq_true_eq]
        split
        · next hlt => exact ⟨_, rfl, fun _ => hlt.le⟩
        · exact hrest
    · simp only [pure_bind, Bool.false_eq_true, if_false]
      exact hrest
  · have hn : toU32 r.replacerSize = .error .unwrap := if_neg hsize
    apply Or.inl
    simp only [increaseTarget, hn, hquot, hsum, ok_bind]
    split
    · next hghost =>
        have hone := B.addU32_eq (x := r.mruTargetSize) (y := 1)
          (by rw [increment, if_pos hghost] at h; exact h)
        rw [hone]
        rfl
    · rfl

theorem increaseTarget_overflow (hp : r.TargetOverflows p) :
    r.increaseTarget ⟨true⟩ = .error .overflow := by
  obtain ⟨hp, h⟩ := hp
  have hquot := divAsU32_eq (x := r.mfuGhost.length) (List.length_pos_of_mem hp).ne'
  have hover : ∀ y, 2 ^ 32 ≤ r.mruTargetSize + y →
      Build.addU32 ⟨true⟩ r.mruTargetSize y = .error .overflow := by
    intro y hy
    rw [Build.addU32, if_neg (by omega), if_pos rfl]
  rw [increment] at h
  rw [increaseTarget]
  split at h
  · next hghost =>
      rw [if_pos hghost, hover 1 h]
      rfl
  · next hghost =>
      simp only [if_neg hghost, pure_bind, Bool.false_eq_true, if_false, hquot, ok_bind,
        hover _ h]
      rfl

theorem increaseTarget_ok_iff (hp : p ∈ r.mruGhost) : (∃ t, r.increaseTarget B = .ok t) ↔
    r.replacerSize < 2 ^ 32 ∧ (B.overflowChecks = true → ¬r.TargetOverflows p) := by
  have hpos := List.length_pos_of_mem hp
  have hquot := divAsU32_eq (x := r.mfuGhost.length) hpos.ne'
  constructor
  · rintro ⟨t, ht⟩
    have hover : B.overflowChecks = true → ¬r.TargetOverflows p := by
      rintro hB hover
      obtain rfl : B = ⟨true⟩ := by cases B; simpa using hB
      simp [increaseTarget_overflow hover] at ht
    refine ⟨?_, hover⟩
    by_contra hsize
    have hn : toU32 r.replacerSize = .error .unwrap := if_neg hsize
    rw [increaseTarget] at ht
    split at ht
    · obtain ⟨t₁, -, ht⟩ := bind_eq_ok.mp ht
      simp [hn, bind, Except.bind] at ht
    · simp only [pure_bind, Bool.false_eq_true, if_false, hquot, ok_bind] at ht
      obtain ⟨t₁, -, ht⟩ := bind_eq_ok.mp ht
      simp [hn, bind, Except.bind] at ht
  · rintro ⟨hsize, hover⟩
    have hn := toU32_eq hsize
    have hle := quotient_le_increment r
    have hfits : B.overflowChecks = true → r.mruTargetSize + r.increment < 2 ^ 32 := fun hB =>
      not_le.mp fun hge => hover hB ⟨hp, hge⟩
    obtain ⟨t₁, ht₁⟩ := B.addU32_ok (x := r.mruTargetSize)
      (y := r.mfuGhost.length / r.mruGhost.length % 2 ^ 32) fun hB => by have := hfits hB; omega
    have hrest : ∃ t, (if t₁ ≤ r.replacerSize then Except.ok (ε := Panic) t₁
        else pure r.mruTargetSize) = .ok t := by
      split
      · exact ⟨_, rfl⟩
      · exact ⟨_, rfl⟩
    simp only [increaseTarget, hn, hquot, ht₁, ok_bind]
    split
    · next hghost =>
        obtain ⟨t₂, ht₂⟩ := B.addU32_ok (x := r.mruTargetSize) (y := 1) fun hB => by
          have := hfits hB
          rwa [increment, if_pos hghost] at this
        simp only [ht₂, ok_bind, pure_bind, decide_eq_true_eq]
        split
        · exact ⟨_, rfl⟩
        · exact hrest
    · simp only [pure_bind, Bool.false_eq_true, if_false]
      exact hrest

theorem decreaseTarget_ok_iff (hp : p ∈ r.mfuGhost) : (∃ t, r.decreaseTarget B = .ok t) ↔
    (B.overflowChecks = true → r.mruGhost.length ≤ r.mfuGhost.length → r.mruTargetSize ≠ 0) := by
  have hpos := List.length_pos_of_mem hp
  have hquot := divAsU32_eq (x := r.mruGhost.length) hpos.ne'
  constructor
  · rintro ⟨t, ht⟩ hB hle hzero
    have hsub : B.subU32 0 1 = .error .overflow := by simp [Build.subU32, hB]
    rw [decreaseTarget, if_pos hle, hzero, hsub] at ht
    simp [bind, Except.bind] at ht
  · intro hzero
    have hrest : ∃ t, (if r.mruGhost.length / r.mfuGhost.length % 2 ^ 32 ≤ r.mruTargetSize then
        B.subU32 r.mruTargetSize (r.mruGhost.length / r.mfuGhost.length % 2 ^ 32)
        else pure r.mruTargetSize) = .ok t := by
      split
      · next hle => exact ⟨_, B.subU32_eq hle⟩
      · exact ⟨_, rfl⟩
    simp only [decreaseTarget, hquot, ok_bind]
    split
    · next hle =>
        obtain ⟨t₁, ht₁⟩ := B.subU32_ok (x := r.mruTargetSize) (y := 1) fun hB =>
          Nat.one_le_iff_ne_zero.mpr (hzero hB hle)
        simp only [ht₁, ok_bind, pure_bind, decide_eq_true_eq]
        split
        · exact ⟨_, rfl⟩
        · exact hrest
    · simp only [pure_bind, Bool.false_eq_true, if_false]
      exact hrest

/-- The access is recorded without a panic: a hit in `mru_ghost` converts
`replacer_size` to `u32`, and where overflow is checked the target size has
to have room to move. -/
def Recordable (B : Build) (r : ArcReplacer) (f : FrameId) (p : PageId) : Prop :=
  (f, p) ∉ r.mru ++ r.mfu → (p ∈ r.mruGhost → r.replacerSize < 2 ^ 32) ∧
    (B.overflowChecks = true → ¬r.TargetOverflows p ∧ ¬r.TargetUnderflows p)

theorem recordAccess_ok_iff (f : FrameId) (p : PageId) :
    (∃ r', r.recordAccess B f p = .ok r') ↔ r.Recordable B f p := by
  rw [recordAccess]
  split
  · next hit =>
      refine ⟨fun _ hmiss => absurd (List.mem_append.mpr hit) hmiss, fun _ => ⟨_, rfl⟩⟩
  next miss =>
  have hmiss : (f, p) ∉ r.mru ++ r.mfu := fun h => miss (List.mem_append.mp h)
  have hbind : ∀ (x : Except Panic ℕ) (g : ℕ → ArcReplacer),
      (∃ r', (x >>= fun t => Except.ok (ε := Panic) (g t)) = .ok r') ↔ ∃ t, x = .ok t := by
    intro x g
    cases x with
    | error e => simp [bind, Except.bind]
    | ok t => simp [bind, Except.bind]
  split
  · next hit =>
      refine (hbind _ _).trans ((increaseTarget_ok_iff hit).trans ?_)
      constructor
      · rintro ⟨hsize, hover⟩ -
        exact ⟨fun _ => hsize, fun hB => ⟨hover hB, fun h => h.1 hit⟩⟩
      · exact fun h => ⟨(h hmiss).1 hit, fun hB => ((h hmiss).2 hB).1⟩
  next miss₁ =>
  have hover : ¬r.TargetOverflows p := fun h => miss₁ h.1
  split
  · next hit =>
      refine (hbind _ _).trans ((decreaseTarget_ok_iff hit).trans ?_)
      constructor
      · intro hzero _
        exact ⟨fun h => absurd h miss₁, fun hB => ⟨hover, fun h => hzero hB h.2.2.1 h.2.2.2⟩⟩
      · exact fun h hB hle hzero => ((h hmiss).2 hB).2 ⟨miss₁, hit, hle, hzero⟩
  next miss₂ =>
  -- a page in neither ghost list leaves the target size alone
  refine ⟨fun _ _ => ⟨fun h => absurd h miss₁, fun _ => ⟨hover, fun h => miss₂ h.2.1⟩⟩, fun _ => ?_⟩
  split
  · exact ⟨_, rfl⟩
  split
  · split
    · exact ⟨_, rfl⟩
    · exact ⟨_, rfl⟩
  · exact ⟨_, rfl⟩

theorem decreaseTarget_ok (hp : p ∈ r.mfuGhost)
    (ht : r.mruGhost.length ≤ r.mfuGhost.length → r.mruTargetSize ≠ 0) :
    ∃ t, r.decreaseTarget B = .ok t ∧ t ≤ r.mruTargetSize := by
  have hpos := List.length_pos_of_mem hp
  have hquot := divAsU32_eq (x := r.mruGhost.length) hpos.ne'
  have hless : ∃ t, (if r.mruGhost.length / r.mfuGhost.length % 2 ^ 32 ≤ r.mruTargetSize then
      B.subU32 r.mruTargetSize (r.mruGhost.length / r.mfuGhost.length % 2 ^ 32)
      else pure r.mruTargetSize) = .ok t ∧ t ≤ r.mruTargetSize := by
    split
    · next hle => exact ⟨_, B.subU32_eq hle, Nat.sub_le _ _⟩
    · exact ⟨_, rfl, le_rfl⟩
  simp only [decreaseTarget, hquot, ok_bind]
  split
  · next hle =>
      have hone := B.subU32_eq (Nat.one_le_iff_ne_zero.mpr (ht hle))
      simp only [hone, ok_bind, pure_bind, decide_eq_true_eq]
      split
      · exact ⟨_, rfl, Nat.sub_le _ _⟩
      · exact hless
  · simp only [pure_bind, Bool.false_eq_true, if_false]
    exact hless

/-- With overflow checks, the access does not complete otherwise. -/
theorem recordAccess_error (hmiss : (f, p) ∉ r.mru ++ r.mfu) (hp : r.TargetUnderflows p) :
    r.recordAccess ⟨true⟩ f p = .error .overflow := by
  obtain ⟨hmru, hmfu, hle, hzero⟩ := hp
  have hsub : Build.subU32 ⟨true⟩ 0 1 = .error .overflow := rfl
  rw [recordAccess, if_neg (by simpa using hmiss), if_neg hmru, if_pos hmfu, decreaseTarget,
    if_pos hle]
  simp only [hzero, hsub, bind, Except.bind]

/-- **The condition is exact**, for one call. -/
theorem inRange_iff_targetMoves (call : ArcCall) : r.InRange call ↔ r.TargetMoves call := by
  cases call with
  | setEvictable f => exact Iff.rfl
  | evict => exact Iff.rfl
  | remove f => exact Iff.rfl
  | recordAccess f p => ?_
  by_cases hmem : (f, p) ∈ r.mru ++ r.mfu
  · have hok : ∃ r', r.recordAccess ⟨true⟩ f p = .ok r' := by
      rw [recordAccess, if_pos (by simpa using hmem)]
      exact ⟨_, rfl⟩
    obtain ⟨r', hr'⟩ := hok
    simp [InRange, TargetMoves, hr', errorOf, hmem]
  constructor
  · rintro ⟨hover, -⟩ -
    rw [Ne, errorOf_eq_some] at hover
    refine ⟨fun hp => hover ?_, fun hp => hover (recordAccess_error hmem hp)⟩
    rw [recordAccess, if_neg (by simpa using hmem), if_pos hp.1]
    show ArcReplacer.increaseTarget ⟨true⟩ r >>= _ = _
    rw [increaseTarget_overflow hp]
    rfl
  · intro hmoves
    obtain ⟨hover, hunder⟩ := hmoves hmem
    -- `replacer_size` that is no `u32` makes an access panic, but not by overflow
    suffices H : r.recordAccess ⟨true⟩ f p = .error .unwrap ∨
        ∃ r', r.recordAccess ⟨true⟩ f p = .ok r' by
      rcases H with H | ⟨r', H⟩
      · simp [InRange, H, errorOf]
      · simp [InRange, H, errorOf]
    rw [recordAccess, if_neg (by simpa using hmem)]
    split
    · next hit =>
        have hlt : r.mruTargetSize + r.increment < 2 ^ 32 := by
          by_contra hge
          exact hover ⟨hit, by omega⟩
        rcases increaseTarget_cases (B := ⟨true⟩) hit hlt with herr | ⟨t, ht, -⟩
        · exact Or.inl (by rw [show ArcReplacer.increaseTarget ⟨true⟩ _ = _ from herr]; rfl)
        · exact Or.inr ⟨_, bind_eq_ok.mpr ⟨t, ht, rfl⟩⟩
    next miss =>
    apply Or.inr
    split
    · next hit =>
        obtain ⟨t, ht, -⟩ := decreaseTarget_ok (B := ⟨true⟩) hit
          fun hle hzero => hunder ⟨miss, hit, hle, hzero⟩
        exact ⟨_, bind_eq_ok.mpr ⟨t, ht, rfl⟩⟩
    split
    · exact ⟨_, rfl⟩
    split
    · split
      · exact ⟨_, rfl⟩
      · exact ⟨_, rfl⟩
    · exact ⟨_, rfl⟩

/-- One call keeps the target size up to `replacer_size`. -/
theorem step_target {call : ArcCall} (hmoves : r.TargetMoves call)
    (h : r.replacerSize = c ∧ r.mruTargetSize ≤ c) (hstep : step B call r = some r') :
    r'.replacerSize = c ∧ r'.mruTargetSize ≤ c := by
  obtain ⟨rfl, htarget⟩ := h
  cases call with
  | recordAccess f p =>
      have hr := recordAccess_recorded (step_recordAccess.mp hstep)
      refine ⟨hr.replacerSize_eq, ?_⟩
      cases hr with
      | promote => exact htarget
      | mruGhostHit miss hit t ht =>
          have hlt : r.mruTargetSize + r.increment < 2 ^ 32 := by
            by_contra hge
            exact (hmoves miss).1 ⟨hit, by omega⟩
          rcases increaseTarget_cases (B := B) hit hlt with herr | ⟨t', ht', hle⟩
          · simp [herr] at ht
          · obtain rfl := Except.ok.inj (ht.symm.trans ht')
            exact hle htarget
      | mfuGhostHit miss miss₁ hit t ht =>
          obtain ⟨t', ht', hle⟩ := decreaseTarget_ok (B := B) hit
            fun hle hzero => (hmoves miss).2 ⟨miss₁, hit, hle, hzero⟩
          obtain rfl := Except.ok.inj (ht.symm.trans ht')
          exact hle.trans htarget
      | dropMruGhost => exact htarget
      | dropMfuGhost => exact htarget
      | enter => exact htarget
      | untracked => exact htarget
  | setEvictable f =>
      obtain ⟨n, -, rfl⟩ := setEvictable_eq_ok.mp (step_setEvictable.mp hstep)
      exact ⟨rfl, htarget⟩
  | evict =>
      obtain ⟨o, hevict⟩ := step_evict.mp hstep
      rcases evict_cases hevict with ⟨-, rfl, -⟩ | ⟨f, p, -, hr⟩
      · exact ⟨rfl, htarget⟩
      · exact ⟨hr.replacerSize_eq, hr.mruTargetSize_eq ▸ htarget⟩
  | remove f =>
      obtain rfl := step_remove.mp hstep
      rw [ArcReplacer.remove]
      split
      · exact ⟨rfl, htarget⟩
      · exact ⟨rfl, htarget⟩

end Moves

/-- **The target size stays in range** in a run of calls, and its arithmetic
with it, exactly if every access of the run leaves it room to move. -/
theorem target_inRange_iff (B : Build) (c : ℕ) (calls : List ArcCall) :
    Throughout (step B) (fun _ r => r.mruTargetSize ≤ c) [] calls (new c) ∧
        Before (step B) (fun _ call r => r.InRange call) [] calls (new c) ↔
      Before (step B) (fun _ call r => r.TargetMoves call) [] calls (new c) := by
  constructor
  · rintro ⟨-, hrange⟩
    exact hrange.mono fun _ call r h => (inRange_iff_targetMoves call).mp h
  · intro hmoves
    refine ⟨?_, hmoves.mono fun _ call r h => (inRange_iff_targetMoves call).mpr h⟩
    have hthroughout : Throughout (step B)
        (fun _ r => r.replacerSize = c ∧ r.mruTargetSize ≤ c) [] calls (new c) := by
      refine throughout_of_along ?_ ⟨rfl, Nat.zero_le c⟩ hmoves.along
      intro hist call r r' h hmoves hstep
      exact step_target hmoves h hstep
    exact hthroughout.mono fun _ _ h => h.2

/-- What a pool with one frame asks of its replacer when page 0 is read
twice, then page 1, then page 0. -/
def returningAccesses : List ArcCall :=
  [.recordAccess 0 0, .setEvictable 0, .recordAccess 0 0, .setEvictable 0, .evict,
    .recordAccess 0 1, .setEvictable 0, .evict, .recordAccess 0 0]

/-- The same on the pool, up to the last read. -/
def returningCalls : List PoolCall :=
  [.newPage, .newPage, .checkPage .read 0, .dropGuard ⟨.read, 0, 0⟩, .checkPage .read 0,
    .dropGuard ⟨.read, 0, 0⟩, .checkPage .read 1, .dropGuard ⟨.read, 1, 0⟩]

/-- With overflow checks the last read panics, without them the target size
wraps. -/
theorem returningAccesses_underflow :
    (run (Session.step ⟨true⟩ .listed) returningCalls
        (.new 1 (.fresh DiskManager.blankFile))).map
          (fun s => errorOf (s.pool.checkPage ⟨true⟩ .listed .read 0)) =
        some (some .overflow) ∧
      (run (Session.step ⟨false⟩ .listed) (returningCalls ++ [.checkPage .read 0])
        (.new 1 (.fresh DiskManager.blankFile))).map
          (fun s => s.pool.arcReplacer.mruTargetSize) = some 4294967295 ∧
      ¬(Throughout (step ⟨false⟩) (fun _ r => r.mruTargetSize ≤ 1) [] returningAccesses (new 1) ∧
        Before (step ⟨false⟩) (fun _ call r => r.InRange call) [] returningAccesses (new 1)) := by
  refine ⟨by decide +kernel, by decide +kernel, ?_⟩
  rintro ⟨hrange, -⟩
  have hrun : (run (step ⟨false⟩) returningAccesses (new 1)).map
      (fun r => r.mruTargetSize) = some 4294967295 := by
    decide +kernel
  obtain ⟨r, hr, htarget⟩ := Option.map_eq_some_iff.mp hrun
  have hle := hrange.last hr
  rw [htarget] at hle
  exact absurd hle (by decide)

end ArcReplacer

end StorageEngine
