import StorageEngine.Pool.Requests

/-!
What a scan leaves of the pages used more than once.

A page that is read once enters `mru`, and as long as `mru` is as long as its
target size the pages evicted for it come from `mru` too. A scan of any length
over pages the replacer has not seen lately then costs `mfu` no more pages than
`mru` is short of its target size, or of one page.
-/

namespace StorageEngine

open Lib

namespace ArcReplacer

/-- What is left of the lists of `r₀` after pages were read once, `k` of which
are yet to enter: the front of `mfu`, but for as many entries as `mru` has come
closer to its target. -/
structure Spares (k : ℕ) (r₀ r : ArcReplacer) : Prop where
  target : r.mruTargetSize = r₀.mruTargetSize
  front : r.mfu <+: r₀.mfu
  length : r₀.mfu.length + (max 1 r₀.mruTargetSize - (r.mru.length + k)) ≤
    r.mfu.length + (max 1 r₀.mruTargetSize - r₀.mru.length)

section Spares

variable {B : Build} {r₀ r r' : ArcReplacer} {f : FrameId} {p : PageId}

theorem Spares.refl (r : ArcReplacer) : r.Spares 0 r := ⟨rfl, List.prefix_rfl, le_rfl⟩

/-- The page of a first access enters `mru`. -/
theorem Recorded.of_fresh (h : Recorded B r f p r') (hmiss : (f, p) ∉ r.mru ++ r.mfu)
    (hmru : p ∉ r.mruGhost) (hmfu : p ∉ r.mfuGhost)
    (hroom : r.mru.length + r.mruGhost.length ≤ r.replacerSize) :
    r'.mruTargetSize = r.mruTargetSize ∧ r'.mru = (f, p) :: r.mru ∧ r'.mfu = r.mfu := by
  cases h with
  | promote hit => exact absurd hit hmiss
  | mruGhostHit miss hit => exact absurd hit hmru
  | mfuGhostHit miss miss₁ hit => exact absurd hit hmfu
  | dropMruGhost => exact ⟨rfl, rfl, rfl⟩
  | dropMfuGhost => exact ⟨rfl, rfl, rfl⟩
  | enter => exact ⟨rfl, rfl, rfl⟩
  | untracked miss miss₁ miss₂ tooMany => exact absurd hroom (Nat.not_le.mpr tooMany)

/-- Where every frame is evictable, `mfu` is evicted from at its end, and only
if `mru` is empty or short of its target. -/
theorem evict_of_evictable (hall : ∀ e ∈ r.mru ++ r.mfu, e.1 ∈ r.evictablePages)
    (hevict : r.evict B = .ok (some f, r')) :
    r'.mruTargetSize = r.mruTargetSize ∧
      (r'.mru.length + 1 = r.mru.length ∧ r'.mfu = r.mfu ∨
        r.mru.length < max 1 r.mruTargetSize ∧ r'.mru = r.mru ∧ ∃ e, r.mfu = r'.mfu ++ [e]) := by
  obtain ⟨hnone, -⟩ | ⟨f', q, hsome, hev⟩ := evict_cases hevict
  · cases hnone
  refine ⟨hev.mruTargetSize_eq, ?_⟩
  cases hev with
  | fromMru pre post m hf list last size =>
      left
      simp [list, Nat.add_assoc]
  | fromMfu pre post m hf list last size =>
      right
      refine ⟨?_, rfl, (f', q), ?_⟩
      · -- otherwise `mru` has a victim, and is looked at first
        by_contra hle
        have hpos : 0 < r.mru.length := by omega
        rw [evict, if_pos (by omega : r.mruTargetSize ≤ r.mru.length)] at hevict
        obtain ⟨⟨o, r₁⟩, hscan, hevict⟩ := bind_eq_ok.mp hevict
        obtain ⟨-, -, hnone⟩ | ⟨f₁, p₁, pre₁, post₁, m₁, rfl, hf₁, hlist, -, -, rfl⟩ :=
          evictFromMruGhost_cases hscan
        · obtain ⟨e, he⟩ := List.exists_mem_of_length_pos hpos
          exact hnone e he (hall e (List.mem_append_left _ he))
        · obtain ⟨-, heq⟩ := Prod.mk.inj (Except.ok.inj hevict)
          have hlen := congrArg (fun r => r.mfu.length) heq
          simp [list] at hlen
      · rw [list]
        cases post with
        | nil => simp
        | cons e post =>
            refine absurd (hall e ?_) (last e List.mem_cons_self)
            simp [list]

theorem Spares.room (h : r₀.Spares 0 r) : r₀.Spares 1 r where
  target := h.target
  front := h.front
  length := by
    have := h.length
    omega

/-- An eviction makes room for one page. -/
theorem Spares.evict (h : r₀.Spares 0 r) (hall : ∀ e ∈ r.mru ++ r.mfu, e.1 ∈ r.evictablePages)
    (hevict : r.evict B = .ok (some f, r')) : r₀.Spares 1 r' := by
  obtain ⟨htarget, ⟨hmru, hmfu⟩ | ⟨hshort, hmru, e, hmfu⟩⟩ := evict_of_evictable hall hevict
  · refine ⟨htarget.trans h.target, hmfu ▸ h.front, ?_⟩
    rw [hmru, hmfu]
    exact h.length
  · refine ⟨htarget.trans h.target, List.IsPrefix.trans ⟨[e], hmfu.symm⟩ h.front, ?_⟩
    have hlen := h.length
    rw [hmfu, List.length_append, List.length_singleton] at hlen
    rw [h.target] at hshort
    rw [hmru]
    omega

/-- The page read then enters `mru`. -/
theorem Spares.record (h : r₀.Spares 1 r) (hmiss : (f, p) ∉ r.mru ++ r.mfu)
    (hmru : p ∉ r.mruGhost) (hmfu : p ∉ r.mfuGhost)
    (hroom : r.mru.length + r.mruGhost.length ≤ r.replacerSize)
    (hr : r.recordAccess B f p = .ok r') : r₀.Spares 0 r' := by
  obtain ⟨htarget, hmru', hmfu'⟩ := (recordAccess_recorded hr).of_fresh hmiss hmru hmfu hroom
  refine ⟨htarget.trans h.target, hmfu' ▸ h.front, ?_⟩
  rw [hmru', hmfu', List.length_cons]
  exact h.length

theorem Spares.setEvictable (h : r₀.Spares 0 r) (hset : r.setEvictable B f = .ok r') :
    r₀.Spares 0 r' := by
  obtain ⟨m, -, rfl⟩ := setEvictable_eq_ok.mp hset
  exact ⟨h.target, h.front, h.length⟩

end Spares

end ArcReplacer

namespace BufferPoolManager

variable {B : Build} {order : HashOrder} {n : ℕ} {bpm bpm' : BufferPoolManager} {kind : GuardKind}
  {p : PageId} {g : Guard} {r₀ : ArcReplacer}

/-- The page is neither resident nor in a ghost list. -/
def Unseen (bpm : BufferPoolManager) (p : PageId) : Prop :=
  bpm.pageTable.lookup p = none ∧ p ∉ bpm.arcReplacer.mruGhost ∧ p ∉ bpm.arcReplacer.mfuGhost

instance (bpm : BufferPoolManager) (p : PageId) : Decidable (bpm.Unseen p) :=
  inferInstanceAs (Decidable (_ ∧ _))

theorem Unseen.loadPage (h : bpm.Unseen p) (ht : bpm.Tracking n)
    (hspares : r₀.Spares 1 bpm.arcReplacer) (hload : bpm.loadPage B kind p = .ok (g, bpm')) :
    r₀.Spares 0 bpm'.arcReplacer := by
  obtain ⟨hnone, hmru, hmfu⟩ := h
  obtain ⟨f, rest, data, dm, r, -, -, -, hr, -, rfl⟩ := loadPage_cases hload
  refine hspares.record (fun hmem => ?_) hmru hmfu (ht.size ▸ ht.bound) hr
  have hsome := ht.mem_iff.mp hmem
  simp [hnone] at hsome

/-- The page of a victim was resident. -/
theorem Unseen.evictFrame (h : bpm.Unseen p) (ht : bpm.Tracking n)
    (hevict : bpm.evictFrame B order = .ok bpm') : bpm'.Unseen p := by
  have hnone := evictFrame_lookup hevict h.1
  obtain ⟨f, q, r, q', reply, dm, -, hev, -, -, -, rfl⟩ := evictFrame_cases hevict
  have hne : p ≠ q := by
    rintro rfl
    have hsome := ht.mem_iff.mp hev.mem
    simp [h.1] at hsome
  refine ⟨hnone, ?_⟩
  show p ∉ r.mruGhost ∧ p ∉ r.mfuGhost
  obtain ⟨hmru, hmfu, -⟩ | ⟨hmru, hmfu, -⟩ := hev.ghosts
  · simpa [hmru, hmfu, hne] using h.2
  · simpa [hmru, hmfu, hne] using h.2

/-- A request for an unseen page where nobody holds a guard. -/
theorem Unseen.checkPage (h : bpm.Unseen p) (ht : bpm.Tracking n)
    (hpins : ∀ f, (bpm.frames f).pinCount ≤ 0) (hspares : r₀.Spares 0 bpm.arcReplacer)
    (hcheck : bpm.checkPage B order kind p = .ok (g, bpm')) : r₀.Spares 0 bpm'.arcReplacer := by
  obtain ⟨f, r, hsome, -⟩ | ⟨-, -, hload⟩ | ⟨-, -, bpm₁, hevict, hload⟩ := checkPage_cases hcheck
  · simp [h.1] at hsome
  · exact h.loadPage ht hspares.room hload
  · apply (h.evictFrame ht hevict).loadPage (ht.evictFrame hevict).1 _ hload
    obtain ⟨f, q, r, q', reply, dm, hev, -, -, -, -, rfl⟩ := evictFrame_cases hevict
    apply hspares.evict _ hev
    rintro ⟨f', q'⟩ he
    exact ht.marked q' f' (ht.mem_iff.mp he) (hpins f')

theorem dropGuard_spares (hspares : r₀.Spares 0 bpm.arcReplacer)
    (hdrop : bpm.dropGuard B g = .ok bpm') : r₀.Spares 0 bpm'.arcReplacer := by
  obtain ⟨-, rfl⟩ | ⟨-, r, hr, rfl⟩ := dropGuard_cases hdrop
  · exact hspares
  · exact hspares.setEvictable hr

end BufferPoolManager

namespace Session

/-- The call is one of a scan: it requests a page that is not resident and not
in a ghost list, where no guard is left, or it works with the guard at hand. -/
def ScansOnce (_ : List PoolCall) (c : PoolCall) (s : Session) : Prop :=
  match c with
  | .checkPage _ p => s.guards = [] ∧ s.pool.Unseen p
  | .newPage | .write _ _ | .flushGuard _ | .dropGuard _ => True
  | .flushPage _ | .flushAllPages | .deletePage _ => False

instance : ∀ hist c s, Decidable (ScansOnce hist c s)
  | _, .checkPage _ p, s => inferInstanceAs (Decidable (s.guards = [] ∧ s.pool.Unseen p))
  | _, .newPage, _ => .isTrue trivial
  | _, .write _ _, _ => .isTrue trivial
  | _, .flushGuard _, _ => .isTrue trivial
  | _, .dropGuard _, _ => .isTrue trivial
  | _, .flushPage _, _ => .isFalse id
  | _, .flushAllPages, _ => .isFalse id
  | _, .deletePage _, _ => .isFalse id

/-- The pages at the front of `mfu` in `s₀` are where they were, and they are
all but as many as `mru` was short of its target, or of one page. -/
def SparesFrequent (s₀ s : Session) : Prop :=
  ∃ kept, kept <+: s₀.pool.arcReplacer.mfu ∧
    s₀.pool.arcReplacer.mfu.length ≤ kept.length +
      (max 1 s₀.pool.arcReplacer.mruTargetSize - s₀.pool.arcReplacer.mru.length) ∧
    ∀ e ∈ kept, s.pool.pageTable.lookup e.2 = some e.1

section Scan

variable {B : Build} {order : HashOrder} {n : ℕ} {s s' s₀ : Session} {c : PoolCall}
  {hist : List PoolCall}

/-- The invariant of a scan that starts in `s₀`. -/
structure Scanning (s₀ : Session) (n : ℕ) (s : Session) : Prop where
  tracked : s.Tracked n
  pins : s.PinsCovered
  spares : s₀.pool.arcReplacer.Spares 0 s.pool.arcReplacer

theorem Scanning.sparesFrequent (h : s₀.Scanning n s) : s₀.SparesFrequent s := by
  refine ⟨s.pool.arcReplacer.mfu, h.spares.front, ?_, ?_⟩
  · exact (Nat.le_add_right _ _).trans h.spares.length
  · rintro ⟨f, p⟩ he
    exact h.tracked.pool.mem_iff.mp (List.mem_append_right _ he)

theorem ScansOnce.unmapsNothing (hc : ScansOnce hist c s) : UnmapsNothing hist c s := by
  rintro p rfl
  exact hc.elim

theorem step_scanning (h : s₀.Scanning n s) (hc : ScansOnce hist c s)
    (hstep : step B order c s = some s') : s₀.Scanning n s' := by
  refine ⟨step_tracked h.tracked hc.unmapsNothing hstep, step_pinsCovered h.pins hstep, ?_⟩
  cases c with
  | checkPage kind p =>
      obtain ⟨hguards, hunseen⟩ := hc
      obtain ⟨g, pool, hcheck, rfl⟩ := step_checkPage.mp hstep
      apply hunseen.checkPage h.tracked.pool _ h.spares hcheck
      intro f
      have hpin := h.pins f
      rwa [liveOn, hguards] at hpin
  | newPage =>
      obtain ⟨p, pool, hnew, rfl⟩ := step_newPage.mp hstep
      obtain ⟨-, reply, dm, -, rfl⟩ := BufferPoolManager.newPage_eq_ok.mp hnew
      exact h.spares
  | write g data =>
      obtain ⟨-, -, rfl⟩ := step_write.mp hstep
      exact h.spares
  | flushGuard g =>
      obtain ⟨-, flushed, pool, hflush, rfl⟩ := step_flushGuard.mp hstep
      obtain ⟨-, -, rfl⟩ | ⟨-, -, reply, dm, -, rfl⟩ :=
        BufferPoolManager.flushGuard_cases hflush
      · exact h.spares
      · exact h.spares
  | dropGuard g =>
      obtain ⟨-, pool, hdrop, rfl⟩ := step_dropGuard.mp hstep
      exact BufferPoolManager.dropGuard_spares h.spares hdrop
  | flushPage p => exact hc.elim
  | flushAllPages => exact hc.elim
  | deletePage p => exact hc.elim

/-- **Scans leave the frequent pages resident.** From any state reached without
unmapping a page, a scan over pages that are not remembered, one guard at a
time and of any length, leaves all pages of `mfu` in their frames but as many
as `mru` was short of its target size, or of one page. -/
theorem sparesFrequent_throughout (B : Build) (order : HashOrder) (n : ℕ) (dm : DiskManager)
    (before calls : List PoolCall)
    (hbefore : Along (step B order) UnmapsNothing [] before (.new n dm)) (s₀ : Session)
    (hrun : run (step B order) before (.new n dm) = some s₀)
    (hcalls : Along (step B order) ScansOnce [] calls s₀) :
    Throughout (step B order) (fun _ s => s₀.SparesFrequent s) [] calls s₀ := by
  have hreached : s₀.Tracked n ∧ s₀.PinsCovered := by
    apply (throughout_of_along (P := fun _ s => s.Tracked n ∧ s.PinsCovered) _
      ⟨new_tracked n dm, new_pinsCovered n dm⟩ hbefore).last hrun
    intro hist c s s' h hc hstep
    exact ⟨step_tracked h.1 hc hstep, step_pinsCovered h.2 hstep⟩
  apply (throughout_of_along (P := fun _ s => s₀.Scanning n s) _
    ⟨hreached.1, hreached.2, .refl _⟩ hcalls).mono
  · exact fun _ _ h => h.sparesFrequent
  · exact fun hist c s s' h hc hstep => step_scanning h hc hstep

end Scan

/-- Page 0 is read twice and page 1 once, and then pages 2 and 3 are scanned in
the frame of page 1. -/
def scanCalls : List PoolCall × List PoolCall :=
  ([.newPage, .newPage, .newPage, .newPage, .checkPage .read 0, .dropGuard ⟨.read, 0, 1⟩,
      .checkPage .read 0, .dropGuard ⟨.read, 0, 1⟩, .checkPage .read 1, .dropGuard ⟨.read, 1, 0⟩],
    [.checkPage .read 2, .dropGuard ⟨.read, 2, 0⟩, .checkPage .read 3, .dropGuard ⟨.read, 3, 0⟩])

theorem sparesFrequent_throughout_two_frames :
    ∃ s₀, run (step ⟨true⟩ .listed) scanCalls.1 (.new 2 (.fresh DiskManager.blankFile)) = some s₀ ∧
      Throughout (step ⟨true⟩ .listed) (fun _ s => s₀.SparesFrequent s) [] scanCalls.2 s₀ := by
  obtain ⟨s₀, hrun, hcalls⟩ : ∃ s₀ ∈ run (step ⟨true⟩ .listed) scanCalls.1
      (.new 2 (.fresh DiskManager.blankFile)),
      Along (step ⟨true⟩ .listed) ScansOnce [] scanCalls.2 s₀ := by
    decide +kernel
  refine ⟨s₀, hrun, sparesFrequent_throughout ⟨true⟩ .listed 2 _ scanCalls.1 _ ?_ s₀ hrun hcalls⟩
  apply Along.of_forall
  rintro c hc hist s p rfl
  simp [scanCalls] at hc

end Session

end StorageEngine
