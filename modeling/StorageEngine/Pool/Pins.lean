import StorageEngine.Pool.Partition

/-!
Pin counts and evictable marks.

A guard pins its frame, and a frame is marked evictable when its last guard
is dropped. Nothing takes the mark back when the frame is pinned again, so
the marks are right exactly in the runs that never pin a marked frame.
-/

namespace StorageEngine

open Lib

namespace BufferPoolManager

/-- The frame the guard of a check will be on, unless a frame has to be
evicted for it. -/
def targetFrame (bpm : BufferPoolManager) (pageId : PageId) : Option FrameId :=
  match bpm.pageTable.lookup pageId with
  | some frameId => some frameId
  | none => bpm.freeFrames.head?

end BufferPoolManager

namespace Session

/-- The number of live guards on a frame. -/
def liveOn (s : Session) (frameId : FrameId) : ℕ := s.guards.countP (·.frameId = frameId)

/-- The pin counts count the live guards. -/
def Counted (s : Session) : Prop := ∀ f, (s.pool.frames f).pinCount = s.liveOn f

/-- With right pin counts, no frame with a live guard is marked evictable. -/
structure Pinned (s : Session) : Prop where
  count : s.Counted
  unmarked : ∀ g ∈ s.guards, g.frameId ∉ s.pool.arcReplacer.evictablePages

/-- A pinned page is not evicted: with `Pinned`, no frame the replacer would
evict has a live guard, and no drop takes a pin count below zero. -/
structure PinsHold (B : Build) (s : Session) : Prop extends Pinned s where
  victim : ∀ f r, s.pool.arcReplacer.evict B = .ok (some f, r) →
    ∀ g ∈ s.guards, g.frameId ≠ f
  noWrap : ∀ g ∈ s.guards, 0 ≤ (s.pool.frames g.frameId).pinCount - 1

/-- The call does not pin a frame that is marked evictable. -/
def PinsUnmarked (_ : List PoolCall) (c : PoolCall) (s : Session) : Prop :=
  ∀ kind p, c = .checkPage kind p → ∀ f, s.pool.targetFrame p = some f →
    f ∉ s.pool.arcReplacer.evictablePages

section Pins

variable {B : Build} {order : HashOrder} {s s' : Session}

theorem liveOn_pos_iff {f : FrameId} : 0 < s.liveOn f ↔ ∃ g ∈ s.guards, g.frameId = f := by
  simp [liveOn, List.countP_pos_iff]

theorem liveOn_cons (pool : BufferPoolManager) (g : Guard) (guards : List Guard)
    (f : FrameId) : liveOn ⟨pool, g :: guards⟩ f =
      liveOn ⟨pool, guards⟩ f + if g.frameId = f then 1 else 0 := by
  simp [liveOn, List.countP_cons]

theorem liveOn_erase {g : Guard} {guards : List Guard} (hg : g ∈ guards)
    (pool : BufferPoolManager) (f : FrameId) :
    (liveOn ⟨pool, guards.erase g⟩ f : ℤ) =
      liveOn ⟨pool, guards⟩ f - if g.frameId = f then 1 else 0 := by
  have hperm : liveOn ⟨pool, guards⟩ f = liveOn ⟨pool, g :: guards.erase g⟩ f :=
    (List.perm_cons_erase hg).countP_eq _
  rw [hperm, liveOn_cons]
  split <;> simp

theorem Counted.pos (h : s.Counted) {g : Guard} (hg : g ∈ s.guards) :
    0 < (s.pool.frames g.frameId).pinCount := by
  have hpos : 0 < s.liveOn g.frameId := liveOn_pos_iff.mpr ⟨g, hg, rfl⟩
  rw [h]
  omega

/-- A frame without pins has no live guard. -/
theorem Counted.frameId_ne (h : s.Counted) {f : FrameId}
    (hf : (s.pool.frames f).pinCount = 0) {g : Guard} (hg : g ∈ s.guards) : g.frameId ≠ f := by
  rintro rfl
  have hpos := h.pos hg
  omega

/-- A frame without live guards has no pins. -/
theorem Counted.pinCount_eq_zero (h : s.Counted) {f : FrameId}
    (hf : ∀ g ∈ s.guards, g.frameId ≠ f) : (s.pool.frames f).pinCount = 0 := by
  have hlive : ¬0 < s.liveOn f := by
    rw [liveOn_pos_iff]
    rintro ⟨g, hg, heq⟩
    exact hf g hg heq
  rw [h]
  omega

theorem Pinned.pinsHold (h : s.Pinned) (B : Build) : s.PinsHold B where
  toPinned := h
  victim := by
    rintro f r hevict g hg rfl
    rcases ArcReplacer.evict_cases hevict with ⟨hnone, -⟩ | ⟨f, p, hsome, hev⟩
    · simp at hnone
    · obtain rfl := Option.some.inj hsome
      exact h.unmarked g hg hev.evictable.1
  noWrap := by
    intro g hg
    have hpos := h.count.pos hg
    omega

/-! ### The building blocks -/

theorem Counted.congr {pool' : BufferPoolManager} (h : s.Counted)
    (hframes : ∀ f, (pool'.frames f).pinCount = (s.pool.frames f).pinCount) :
    Counted ⟨pool', s.guards⟩ := fun f => (hframes f).trans (h f)

theorem Counted.pinned {pool : BufferPoolManager} {guards : List Guard}
    (h : Counted ⟨pool, guards⟩) (kind : GuardKind) (p : PageId) (f : FrameId)
    (r : ArcReplacer) : Counted ⟨pool.pinned f r, ⟨kind, p, f⟩ :: guards⟩ := by
  intro f'
  have hcount : (pool.frames f').pinCount = liveOn ⟨pool, guards⟩ f' := h f'
  rw [liveOn_cons, Nat.cast_add, Nat.cast_ite]
  exact (BufferPoolManager.pinned_pinCount pool f r f').trans (by rw [hcount]; rfl)

/-- A frame without pins may be given back: its blank header has none either. -/
theorem Counted.released {pool : BufferPoolManager} {guards : List Guard} {f : FrameId}
    (h : Counted ⟨pool, guards⟩) (hf : (pool.frames f).pinCount = 0) (p : PageId)
    (r : ArcReplacer) (dm : DiskManager) : Counted ⟨pool.released p f r dm, guards⟩ := by
  apply h.congr
  intro f'
  rw [BufferPoolManager.released_pinCount]
  split
  · next hff => rw [hff, hf]
  · rfl

theorem Counted.loaded {pool : BufferPoolManager} {guards : List Guard}
    (h : Counted ⟨pool, guards⟩) (p : PageId) (f : FrameId) (rest : List FrameId)
    (data : Page) (dm : DiskManager) : Counted ⟨pool.loaded p f rest data dm, guards⟩ :=
  h.congr (pool.loaded_pinCount p f rest data dm)

theorem Counted.loadPage {pool pool' : BufferPoolManager} {guards : List Guard}
    {kind : GuardKind} {p : PageId} {g : Guard} (h : Counted ⟨pool, guards⟩)
    (hload : pool.loadPage B kind p = .ok (g, pool')) : Counted ⟨pool', g :: guards⟩ := by
  obtain ⟨f, rest, data, dm, r, -, -, -, -, rfl, rfl⟩ := BufferPoolManager.loadPage_cases hload
  exact (h.loaded p f rest data dm).pinned kind p f r

theorem Counted.flushFrame {pool pool' : BufferPoolManager} {guards : List Guard}
    {p : PageId} {f : FrameId} {flushed : Bool} (h : Counted ⟨pool, guards⟩)
    (hflush : pool.flushFrame B p f = .ok (flushed, pool')) : Counted ⟨pool', guards⟩ :=
  h.congr (BufferPoolManager.flushFrame_pinCount hflush)

theorem Counted.flushGuard {pool' : BufferPoolManager} {g : Guard} {flushed : Bool}
    (h : s.Counted) (hflush : s.pool.flushGuard g = .ok (flushed, pool')) :
    Counted ⟨pool', s.guards⟩ :=
  h.congr (BufferPoolManager.flushGuard_pinCount hflush)

theorem Counted.write (h : s.Counted) (g : Guard) (data : Page) :
    Counted ⟨(s.pool.dataMut g).store g data, s.guards⟩ :=
  h.congr (s.pool.dataMut_store_pinCount g data)

theorem Counted.dropGuard {g : Guard} {pool' : BufferPoolManager} (h : s.Counted)
    (hg : g ∈ s.guards) (hdrop : s.pool.dropGuard B g = .ok pool') :
    Counted ⟨pool', s.guards.erase g⟩ := by
  intro f
  rw [liveOn_erase hg]
  exact (BufferPoolManager.dropGuard_pinCount hdrop f).trans (by rw [h]; rfl)

/-- What leaves the guards, the pin counts and the marks alone. -/
theorem Pinned.congr {pool' : BufferPoolManager} (h : s.Pinned)
    (hcount : Counted ⟨pool', s.guards⟩)
    (hmarks : pool'.arcReplacer.evictablePages = s.pool.arcReplacer.evictablePages) :
    Pinned ⟨pool', s.guards⟩ where
  count := hcount
  unmarked := by
    intro g hg
    rw [hmarks]
    exact h.unmarked g hg

/-- A frame without pins may be marked. -/
theorem Pinned.mark {pool' : BufferPoolManager} {f : FrameId} (h : s.Pinned)
    (hf : (s.pool.frames f).pinCount = 0) (hcount : Counted ⟨pool', s.guards⟩)
    (hmarks : pool'.arcReplacer.evictablePages =
      insert f s.pool.arcReplacer.evictablePages) : Pinned ⟨pool', s.guards⟩ where
  count := hcount
  unmarked := by
    intro g hg
    rw [hmarks, Finset.mem_insert, not_or]
    exact ⟨h.count.frameId_ne hf hg, h.unmarked g hg⟩

theorem Pinned.pinned {pool : BufferPoolManager} {guards : List Guard} {kind : GuardKind}
    {p : PageId} {f : FrameId} {r : ArcReplacer} (h : Pinned ⟨pool, guards⟩)
    (hmark : f ∉ pool.arcReplacer.evictablePages)
    (hr : pool.arcReplacer.recordAccess B f p = .ok r) :
    Pinned ⟨pool.pinned f r, ⟨kind, p, f⟩ :: guards⟩ where
  count := h.count.pinned kind p f r
  unmarked := by
    intro g hg
    show g.frameId ∉ r.evictablePages
    rw [(ArcReplacer.recordAccess_recorded hr).evictablePages_eq]
    rcases List.mem_cons.mp hg with rfl | hg
    · exact hmark
    · exact h.unmarked g hg

theorem Pinned.released {pool : BufferPoolManager} {guards : List Guard} {f : FrameId}
    {r : ArcReplacer} (h : Pinned ⟨pool, guards⟩) (hf : (pool.frames f).pinCount = 0)
    (hr : r.evictablePages ⊆ pool.arcReplacer.evictablePages) (p : PageId)
    (dm : DiskManager) : Pinned ⟨pool.released p f r dm, guards⟩ where
  count := h.count.released hf p r dm
  unmarked := fun g hg hmem => h.unmarked g hg (hr hmem)

theorem Pinned.evictFrame {pool pool' : BufferPoolManager} {guards : List Guard}
    (h : Pinned ⟨pool, guards⟩) (hevict : pool.evictFrame B order = .ok pool') :
    Pinned ⟨pool', guards⟩ ∧ ∃ f, pool'.freeFrames = f :: pool.freeFrames ∧
      f ∉ pool'.arcReplacer.evictablePages := by
  obtain ⟨f, p, r, q, reply, dm, -, hev, -, -, -, rfl⟩ :=
    BufferPoolManager.evictFrame_cases hevict
  obtain ⟨hmem, herase⟩ := hev.evictable
  have hzero : (pool.frames f).pinCount = 0 := by
    apply h.count.pinCount_eq_zero
    rintro g hg rfl
    exact h.unmarked g hg hmem
  refine ⟨h.released hzero ?_ q dm, f, rfl, ?_⟩
  · rw [herase]
    exact Finset.erase_subset _ _
  · show f ∉ r.evictablePages
    simp [herase]

theorem Pinned.loadPage {pool pool' : BufferPoolManager} {guards : List Guard}
    {kind : GuardKind} {p : PageId} {g : Guard} {f : FrameId} (h : Pinned ⟨pool, guards⟩)
    (hfree : pool.freeFrames.head? = some f) (hmark : f ∉ pool.arcReplacer.evictablePages)
    (hload : pool.loadPage B kind p = .ok (g, pool')) : Pinned ⟨pool', g :: guards⟩ := by
  obtain ⟨f', rest, data, dm, r, hfree', -, -, hr, rfl, rfl⟩ :=
    BufferPoolManager.loadPage_cases hload
  obtain rfl : f' = f := by simpa [hfree'] using hfree
  exact Pinned.pinned (h.congr (h.count.loaded p f' rest data dm) rfl) hmark hr

theorem Pinned.flushFrame {pool pool' : BufferPoolManager} {guards : List Guard}
    {p : PageId} {f : FrameId} {flushed : Bool} (h : Pinned ⟨pool, guards⟩)
    (hflush : pool.flushFrame B p f = .ok (flushed, pool')) : Pinned ⟨pool', guards⟩ := by
  have hcount := h.count.flushFrame hflush
  obtain ⟨-, r, r', dm, hr, hr', -, rfl⟩ := BufferPoolManager.flushFrame_cases hflush
  have hmarks := (ArcReplacer.recordAccess_recorded hr).evictablePages_eq
  rcases hr' with ⟨-, rfl⟩ | ⟨hzero, hr'⟩
  · exact h.congr hcount hmarks
  · obtain ⟨m, -, rfl⟩ := ArcReplacer.setEvictable_eq_ok.mp hr'
    apply h.mark hzero hcount
    show insert f r.evictablePages = _
    rw [hmarks]

/-! ### The calls -/

/-- A frame that was not marked may be pinned, and only such a frame. -/
theorem checkPage_pinned_iff {pool pool' : BufferPoolManager} {guards : List Guard}
    {kind : GuardKind} {p : PageId} {g : Guard} (h : Pinned ⟨pool, guards⟩)
    (hcheck : pool.checkPage B order kind p = .ok (g, pool')) :
    Pinned ⟨pool', g :: guards⟩ ↔
      ∀ f, pool.targetFrame p = some f → f ∉ pool.arcReplacer.evictablePages := by
  rcases BufferPoolManager.checkPage_cases hcheck with ⟨f, r, hp, -, hr, rfl, rfl⟩ |
    ⟨hp, hfree, hload⟩ | ⟨hp, hfree, pool₁, hevict, hload⟩
  · simp only [BufferPoolManager.targetFrame, hp, Option.some.injEq, forall_eq']
    refine ⟨fun h' => ?_, fun hmark => h.pinned hmark hr⟩
    have hmark := h'.unmarked ⟨kind, p, f⟩ (by simp)
    rwa [show (pool.pinned f r).arcReplacer.evictablePages = _ from
      (ArcReplacer.recordAccess_recorded hr).evictablePages_eq] at hmark
  · obtain ⟨f, rest, hf⟩ := List.exists_cons_of_ne_nil hfree
    have hhead : pool.freeFrames.head? = some f := by simp [hf]
    simp only [BufferPoolManager.targetFrame, hp, hhead, Option.some.injEq, forall_eq']
    refine ⟨fun h' => ?_, fun hmark => h.loadPage hhead hmark hload⟩
    obtain ⟨f', rest', data, dm, r, hfree', -, -, hr, rfl, rfl⟩ :=
      BufferPoolManager.loadPage_cases hload
    obtain rfl : f' = f := by simpa [hfree'] using hhead
    have hmark := h'.unmarked ⟨kind, p, f'⟩ (by simp)
    rwa [show ((pool.loaded p f' rest' data dm).pinned f' r).arcReplacer.evictablePages = _ from
      (ArcReplacer.recordAccess_recorded hr).evictablePages_eq] at hmark
  · -- a frame just evicted is not marked
    simp only [BufferPoolManager.targetFrame, hp, hfree, List.head?_nil, reduceCtorEq,
      false_implies, implies_true, iff_true]
    obtain ⟨h₁, f, hf, hmark⟩ := h.evictFrame hevict
    exact h₁.loadPage (by simp [hf]) hmark hload

theorem Pinned.dropGuard {g : Guard} {pool' : BufferPoolManager} (h : s.Pinned)
    (hg : g ∈ s.guards) (hdrop : s.pool.dropGuard B g = .ok pool') :
    Pinned ⟨pool', s.guards.erase g⟩ := by
  have hcount := h.count.dropGuard hg hdrop
  refine ⟨hcount, fun g' hg' => ?_⟩
  have hmark := h.unmarked g' (List.mem_of_mem_erase hg')
  rcases BufferPoolManager.dropGuard_cases hdrop with ⟨-, rfl⟩ | ⟨hone, r, hr, rfl⟩
  · exact hmark
  · obtain ⟨m, -, rfl⟩ := ArcReplacer.setEvictable_eq_ok.mp hr
    show g'.frameId ∉ insert g.frameId s.pool.arcReplacer.evictablePages
    rw [Finset.mem_insert, not_or]
    refine ⟨fun heq => ?_, hmark⟩
    -- the guard dropped was the only one on its frame
    have hpos := hcount.pos hg'
    have hzero : ((s.pool.unpinned g.frameId).frames g'.frameId).pinCount = 0 := by
      simp [heq, BufferPoolManager.unpinned, hone]
    have hpos' : 0 < ((s.pool.unpinned g.frameId).frames g'.frameId).pinCount := hpos
    omega

theorem Pinned.deletePage {p : PageId} {pool' : BufferPoolManager} (h : s.Pinned)
    (hdelete : s.pool.deletePage p = .ok pool') : Pinned ⟨pool', s.guards⟩ := by
  rcases BufferPoolManager.deletePage_cases hdelete with
    ⟨-, rfl⟩ | ⟨f, -, -, ⟨-, rfl⟩ | ⟨hzero, reply, dm, -, rfl⟩⟩
  · exact h
  · exact h
  · exact Pinned.released h hzero (ArcReplacer.remove_evictablePages_subset _ f) p dm

theorem step_pinned {hist : List PoolCall} {c : PoolCall} (h : s.Pinned)
    (hc : PinsUnmarked hist c s) (hstep : step B order c s = some s') : s'.Pinned := by
  cases c with
  | newPage =>
      obtain ⟨p, pool, hnew, rfl⟩ := step_newPage.mp hstep
      obtain ⟨-, reply, dm, -, rfl⟩ := BufferPoolManager.newPage_eq_ok.mp hnew
      exact h.congr (h.count.congr fun _ => rfl) rfl
  | checkPage kind p =>
      obtain ⟨g, pool, hcheck, rfl⟩ := step_checkPage.mp hstep
      exact (checkPage_pinned_iff h hcheck).mpr (hc kind p rfl)
  | write g data =>
      obtain ⟨-, -, rfl⟩ := step_write.mp hstep
      exact h.congr (h.count.write g data) rfl
  | flushGuard g =>
      obtain ⟨-, b, pool, hflush, rfl⟩ := step_flushGuard.mp hstep
      have hcount := h.count.flushGuard hflush
      rcases BufferPoolManager.flushGuard_cases hflush with
        ⟨-, -, rfl⟩ | ⟨-, -, reply, dm, -, rfl⟩
      · exact h
      · exact h.congr hcount rfl
  | dropGuard g =>
      obtain ⟨hg, pool, hdrop, rfl⟩ := step_dropGuard.mp hstep
      exact h.dropGuard hg hdrop
  | flushPage p =>
      obtain ⟨b, pool, hflush, rfl⟩ := step_flushPage.mp hstep
      rcases BufferPoolManager.flushPage_cases hflush with ⟨-, -, rfl⟩ | ⟨f, -, hflush⟩
      · exact h
      · exact Pinned.flushFrame h hflush
  | flushAllPages =>
      obtain ⟨b, pool, hflush, rfl⟩ := step_flushAllPages.mp hstep
      exact BufferPoolManager.flushAllPages_induction
        (J := fun pool => Pinned ⟨pool, s.guards⟩)
        (fun _ _ _ _ _ hJ _ hflush => hJ.flushFrame hflush) h hflush
  | deletePage p =>
      obtain ⟨pool, hdelete, rfl⟩ := step_deletePage.mp hstep
      exact h.deletePage hdelete

theorem new_pinned (n : ℕ) (dm : DiskManager) : (new n dm).Pinned where
  count := fun _ => rfl
  unmarked := fun _ hg => absurd hg List.not_mem_nil

/-- **A pinned page is never evicted** in a run exactly if the run never pins
a frame that is marked evictable. -/
theorem pinsHold_iff_pinsUnmarked (B : Build) (order : HashOrder) (n : ℕ)
    (dm : DiskManager) (calls : List PoolCall) :
    Throughout (step B order) (fun _ s => s.PinsHold B) [] calls (.new n dm) ↔
      Along (step B order) PinsUnmarked [] calls (.new n dm) := by
  refine throughout_iff_along (P := fun _ s => s.Pinned) ?_ (fun _ _ h => h.pinsHold B) ?_
    (new_pinned n dm)
  · intro hist c s s' h hc hstep
    exact step_pinned h hc hstep
  · rintro hist c s s' h hstep h' kind p rfl
    obtain ⟨g, pool, hcheck, rfl⟩ := step_checkPage.mp hstep
    exact (checkPage_pinned_iff h hcheck).mp h'.toPinned

/-- With one frame: page 0 is read and dropped, read again and kept; the read
of page 1 then evicts it. -/
def evictingCalls : List PoolCall :=
  [.newPage, .newPage, .checkPage .read 0, .dropGuard ⟨.read, 0, 0⟩, .checkPage .read 0,
    .checkPage .read 1]

theorem evictingCalls_evict_pinned :
    ¬Throughout (step ⟨true⟩ .listed) (fun _ s => s.PinsHold ⟨true⟩) [] evictingCalls
      (.new 1 (.fresh DiskManager.blankFile)) := by
  intro h
  have hrun : (run (step ⟨true⟩ .listed) evictingCalls
      (.new 1 (.fresh DiskManager.blankFile))).map
        (fun s => ((s.pool.frames 0).pinCount, s.liveOn 0)) = some (1, 2) := by
    decide +kernel
  obtain ⟨s, hs, hpins⟩ := Option.map_eq_some_iff.mp hrun
  obtain ⟨hcount, hlive⟩ := Prod.mk.inj hpins
  have hpinned := (h.last hs).count 0
  rw [hcount, hlive] at hpinned
  exact absurd hpinned (by decide)

end Pins

end Session

end StorageEngine
