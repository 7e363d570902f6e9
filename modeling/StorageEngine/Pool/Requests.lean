import StorageEngine.Pool.TargetSize

/-!
When a page request returns a guard.

`check_write_page` and `check_read_page` have no way out but the guard: where
no frame can be evicted or the page cannot be read, an `unwrap` panics. The
state before the request decides which of the two it is, in every run and
whatever the disk does. The locks it may have to wait for are in
`Pool.Locks`.
-/

namespace StorageEngine

open Lib

namespace DiskManager

/-- A read of the page succeeds. -/
def Reads (dm : DiskManager) (pageId : PageId) : Prop :=
  ∃ data dm', dm.serve ⟨.read, pageId, .zero pageSize⟩ = .ok (some data, dm')

/-- The worker answers every write. -/
theorem serve_write_ok (dm : DiskManager) (p : PageId) (data : Page) :
    ∃ reply dm', dm.serve ⟨.write, p, data⟩ = .ok (reply, dm') := by
  simp only [serve]
  split
  · exact ⟨_, _, rfl⟩
  · exact ⟨_, _, rfl⟩

end DiskManager

namespace BufferPoolManager

/-- The result of `check_write_page` and `check_read_page`: every `return` is
of a `Some`. -/
def requestPage (B : Build) (order : HashOrder) (bpm : BufferPoolManager) (kind : GuardKind)
    (pageId : PageId) : Except Panic (Option Guard × BufferPoolManager) := do
  let (guard, bpm) ← bpm.checkPage B order kind pageId
  return (some guard, bpm)

/-- The frame a request pins and the replacer that records the access: the
frame of the page, a free one, or that of the victim. -/
def recording (B : Build) (bpm : BufferPoolManager) (pageId : PageId) :
    Option (FrameId × ArcReplacer) :=
  match bpm.pageTable.lookup pageId, bpm.freeFrames, bpm.arcReplacer.evict B with
  | some f, _, _ => some (f, bpm.arcReplacer)
  | none, f :: _, _ => some (f, bpm.arcReplacer)
  | none, [], .ok (some f, r) => some (f, r)
  | _, _, _ => none

/-- The disk the page is read from: the victim, where there is one, has been
written to it before. -/
def readDisk (B : Build) (order : HashOrder) (bpm : BufferPoolManager) : DiskManager :=
  match bpm.freeFrames, bpm.evictFrame B order with
  | [], .ok bpm' => bpm'.diskManager
  | _, _ => bpm.diskManager

section Requests

variable {B : Build} {order : HashOrder} {n : ℕ} {bpm bpm' : BufferPoolManager}
  {kind : GuardKind} {p : PageId}

theorem newGuard_ok {f : FrameId} {r : ArcReplacer} (kind : GuardKind)
    (hr : bpm.arcReplacer.recordAccess B f p = .ok r) :
    bpm.newGuard B kind p f = .ok (⟨kind, p, f⟩, bpm.pinned f r) :=
  newGuard_eq_ok.mpr ⟨r, hr, rfl, rfl⟩

/-- A page is loaded exactly if it can be read and its access recorded. -/
theorem loadPage_ok_iff {f : FrameId} {rest : List FrameId} (kind : GuardKind)
    (hfree : bpm.freeFrames = f :: rest) (hlt : f < bpm.numFrames) :
    (∃ g bpm', bpm.loadPage B kind p = .ok (g, bpm')) ↔
      bpm.diskManager.Reads p ∧ bpm.arcReplacer.Recordable B f p := by
  rw [← ArcReplacer.recordAccess_ok_iff]
  constructor
  · rintro ⟨g, bpm', hload⟩
    obtain ⟨f', rest', data, dm, r, hfree', -, hread, hr, -⟩ := loadPage_cases hload
    obtain ⟨rfl, -⟩ := List.cons.inj (hfree.symm.trans hfree')
    exact ⟨⟨data, dm, hread⟩, r, hr⟩
  · rintro ⟨⟨data, dm, hread⟩, r, hr⟩
    refine ⟨⟨kind, p, f⟩, (bpm.loaded p f rest data dm).pinned f r, ?_⟩
    simp only [loadPage, hfree]
    refine bind_eq_ok.mpr ⟨_, request_eq_ok.mpr ⟨dm, hread, rfl⟩, ?_⟩
    refine bind_eq_ok.mpr ⟨_, frame_eq_ok.mpr ⟨hlt, rfl⟩, ?_⟩
    exact bind_eq_ok.mpr ⟨_, rfl, newGuard_ok kind hr⟩

/-- A victim is always mapped, and the worker answers its write-back. -/
theorem evictFrame_eq_ok (h : bpm.Partition n) (hfree : bpm.freeFrames = []) {f : FrameId}
    {r : ArcReplacer} (hevict : bpm.arcReplacer.evict B = .ok (some f, r)) (order : HashOrder) :
    ∃ q reply dm, f < bpm.numFrames ∧ bpm.pageTable.lookup q = some f ∧
      bpm.diskManager.serve ⟨.write, q, (bpm.frames f).data⟩ = .ok (reply, dm) ∧
      bpm.evictFrame B order = .ok (bpm.released q f r dm) := by
  -- that it completes is enough: what it did, `evictFrame_cases` says
  suffices H : ∃ bpm', bpm.evictFrame B order = .ok bpm' by
    obtain ⟨bpm', hok⟩ := H
    obtain ⟨f', p', r', q, reply, dm, hevict', -, hlt, hq, hserve, rfl⟩ := evictFrame_cases hok
    obtain ⟨hf, rfl⟩ := ok_pair_unique hevict hevict'
    obtain rfl := Option.some.inj hf
    exact ⟨q, reply, dm, hlt, hq, hserve, hok⟩
  obtain ⟨-, hfind, -⟩ := h.evictsMapped B order f r hfree hevict
  obtain ⟨⟨q, x⟩, hfind⟩ := Option.isSome_iff_exists.mp hfind
  obtain ⟨reply, dm, hserve⟩ := bpm.diskManager.serve_write_ok q (bpm.frames f).data
  have hlt : f < bpm.numFrames := by
    rcases ArcReplacer.evict_cases hevict with ⟨hnone, -⟩ | ⟨f', p', hsome, hev⟩
    · simp at hnone
    · obtain rfl := Option.some.inj hsome
      exact h.numFrames ▸ h.tracked _ hev.mem
  refine ⟨bpm.released q f r dm, ?_⟩
  simp only [evictFrame, hevict, ok_bind, orPanic_some, hfind]
  refine bind_eq_ok.mpr ⟨_, frame_eq_ok.mpr ⟨hlt, rfl⟩, ?_⟩
  exact bind_eq_ok.mpr ⟨_, request_eq_ok.mpr ⟨dm, hserve, rfl⟩, rfl⟩

/-! ### What is recorded, and what is read -/

theorem recording_resident {f : FrameId} (hp : bpm.pageTable.lookup p = some f) :
    bpm.recording B p = some (f, bpm.arcReplacer) := by
  rw [recording, hp]

theorem recording_free {f : FrameId} {rest : List FrameId}
    (hp : bpm.pageTable.lookup p = none) (hfree : bpm.freeFrames = f :: rest) :
    bpm.recording B p = some (f, bpm.arcReplacer) := by
  rw [recording, hp, hfree]

theorem recording_victim {f : FrameId} {r : ArcReplacer}
    (hp : bpm.pageTable.lookup p = none) (hfree : bpm.freeFrames = [])
    (hevict : bpm.arcReplacer.evict B = .ok (some f, r)) :
    bpm.recording B p = some (f, r) := by
  rw [recording, hp, hfree, hevict]

theorem readDisk_of_free (hfree : bpm.freeFrames ≠ []) :
    bpm.readDisk B order = bpm.diskManager := by
  rw [readDisk]
  split
  · next hnil _ => exact absurd hnil hfree
  · rfl

theorem readDisk_of_evict (hfree : bpm.freeFrames = [])
    (hevict : bpm.evictFrame B order = .ok bpm') :
    bpm.readDisk B order = bpm'.diskManager := by
  rw [readDisk, hfree, hevict]

/-- The frame and the replacer a request records with are these. -/
theorem recordable_iff {f : FrameId} {r : ArcReplacer}
    (hrec : bpm.recording B p = some (f, r)) :
    (∀ f r, bpm.recording B p = some (f, r) → r.Recordable B f p) ↔ r.Recordable B f p := by
  refine ⟨fun h => h f r hrec, fun h f' r' hrec' => ?_⟩
  obtain ⟨rfl, rfl⟩ := Prod.mk.inj (Option.some.inj (hrec.symm.trans hrec'))
  exact h

/-- **When a request returns a guard**, on any pool whose frames are
partitioned and whose replacer counts its marks. -/
theorem checkPage_ok_iff (h : bpm.Partition n) (hcounts : bpm.arcReplacer.CountsMarks B) :
    (∃ g bpm', bpm.checkPage B order kind p = .ok (g, bpm')) ↔
      (bpm.pageTable.lookup p = none → (bpm.readDisk B order).Reads p ∧
        (bpm.freeFrames = [] → ∃ e ∈ bpm.arcReplacer.mru ++ bpm.arcReplacer.mfu,
          e.1 ∈ bpm.arcReplacer.evictablePages)) ∧
      ∀ f r, bpm.recording B p = some (f, r) → r.Recordable B f p := by
  cases hp : bpm.pageTable.lookup p with
  | some f =>
      have hlt : f < bpm.numFrames := h.numFrames ▸ h.lt hp
      rw [recordable_iff (recording_resident hp), ← ArcReplacer.recordAccess_ok_iff]
      simp only [checkPage, hp, frame_eq_ok.mpr ⟨hlt, rfl⟩, ok_bind]
      constructor
      · rintro ⟨g, bpm', hguard⟩
        obtain ⟨r, hr, -⟩ := newGuard_eq_ok.mp hguard
        exact ⟨fun hnone => absurd hnone (Option.some_ne_none f), r, hr⟩
      · rintro ⟨-, r, hr⟩
        exact ⟨_, _, newGuard_ok kind hr⟩
  | none =>
      cases hfree : bpm.freeFrames with
      | cons f rest =>
          have hlt : f < bpm.numFrames := by
            rw [h.numFrames, h.cover, hfree]
            exact Or.inr List.mem_cons_self
          have hne : bpm.freeFrames ≠ [] := hfree ▸ List.cons_ne_nil f rest
          rw [recordable_iff (recording_free hp hfree), readDisk_of_free hne]
          simp only [checkPage, hp, List.length_pos_iff.mpr hne, if_true,
            loadPage_ok_iff kind hfree hlt]
          constructor
          · rintro ⟨hread, hr⟩
            exact ⟨fun _ => ⟨hread, fun hnil => absurd hnil (List.cons_ne_nil f rest)⟩, hr⟩
          · rintro ⟨hread, hr⟩
            exact ⟨(hread trivial).1, hr⟩
      | nil =>
          have hcheck : bpm.checkPage B order kind p =
              bpm.evictFrame B order >>= fun bpm' => bpm'.loadPage B kind p := by
            simp only [checkPage, hp, hfree, List.length_nil, lt_irrefl, if_false]
          -- once a victim is found, the rest of the request loads the page into its frame
          have hrest : ∀ f r, bpm.arcReplacer.evict B = .ok (some f, r) →
              ((∃ g bpm', bpm.checkPage B order kind p = .ok (g, bpm')) ↔
                (bpm.readDisk B order).Reads p ∧ r.Recordable B f p) := by
            intro f r hevict
            obtain ⟨q, reply, dm, hlt, -, -, hok⟩ := evictFrame_eq_ok h hfree hevict order
            rw [hcheck, hok, ok_bind, readDisk_of_evict hfree hok]
            have hfree' : (bpm.released q f r dm).freeFrames = f :: bpm.freeFrames := rfl
            exact loadPage_ok_iff kind hfree' hlt
          constructor
          · rintro ⟨g, bpm', hok⟩
            obtain ⟨bpm₁, hok₁, -⟩ := bind_eq_ok.mp (hcheck.symm.trans hok)
            obtain ⟨f, q, r, -, -, -, hevict, hev, -⟩ := evictFrame_cases hok₁
            obtain ⟨hread, hr⟩ := (hrest f r hevict).mp ⟨g, bpm', hok⟩
            rw [recordable_iff (recording_victim hp hfree hevict)]
            exact ⟨fun _ => ⟨hread, fun _ => ⟨(f, q), hev.mem, hev.evictable.1⟩⟩, hr⟩
          · rintro ⟨hread, hr⟩
            obtain ⟨hread, hvictim⟩ := hread rfl
            obtain ⟨e, he, hmark⟩ := hvictim rfl
            obtain ⟨f, r, hevict⟩ := ArcReplacer.evict_ok hcounts he hmark
            rw [recordable_iff (recording_victim hp hfree hevict)] at hr
            exact (hrest f r hevict).mpr ⟨hread, hr⟩

end Requests

end BufferPoolManager

namespace Session

/-- No pin count exceeds the number of live guards. An eviction of a pinned
frame leaves it below. -/
def PinsCovered (s : Session) : Prop := ∀ f, (s.pool.frames f).pinCount ≤ s.liveOn f

/-- The page is resident, or a frame is free or without guards and the page
can be read. -/
def Grantable (B : Build) (order : HashOrder) (s : Session) (p : PageId) : Prop :=
  (s.pool.pageTable.lookup p).isSome ∨
    (s.pool.freeFrames ≠ [] ∨ ∃ f < s.pool.numFrames, s.liveOn f = 0) ∧
      (s.pool.readDisk B order).Reads p

/-- Some frame the replacer tracks is marked evictable. -/
def TracksVictim (s : Session) : Prop :=
  ∃ e ∈ s.pool.arcReplacer.mru ++ s.pool.arcReplacer.mfu,
    e.1 ∈ s.pool.arcReplacer.evictablePages

section Requests

variable {B : Build} {order : HashOrder} {n : ℕ} {s s' : Session} {kind : GuardKind}
  {p : PageId}

/-! ### Pins are covered by guards -/

theorem PinsCovered.congr {pool' : BufferPoolManager} (h : s.PinsCovered)
    (hframes : ∀ f, (pool'.frames f).pinCount = (s.pool.frames f).pinCount) :
    PinsCovered ⟨pool', s.guards⟩ := fun f => (hframes f).trans_le (h f)

theorem PinsCovered.pinned {pool : BufferPoolManager} {guards : List Guard}
    (h : PinsCovered ⟨pool, guards⟩) (kind : GuardKind) (p : PageId) (f : FrameId)
    (r : ArcReplacer) : PinsCovered ⟨pool.pinned f r, ⟨kind, p, f⟩ :: guards⟩ := by
  intro f'
  have hle : (pool.frames f').pinCount ≤ liveOn ⟨pool, guards⟩ f' := h f'
  rw [liveOn_cons, Nat.cast_add, Nat.cast_ite]
  apply (BufferPoolManager.pinned_pinCount pool f r f').trans_le
  exact add_le_add hle le_rfl

theorem PinsCovered.released {pool : BufferPoolManager} {guards : List Guard}
    (h : PinsCovered ⟨pool, guards⟩) (p : PageId) (f : FrameId) (r : ArcReplacer)
    (dm : DiskManager) : PinsCovered ⟨pool.released p f r dm, guards⟩ := by
  intro f'
  show ((pool.released p f r dm).frames f').pinCount ≤ _
  rw [BufferPoolManager.released_pinCount]
  split
  · exact Int.natCast_nonneg _
  · exact h f'

theorem PinsCovered.loadPage {pool pool' : BufferPoolManager} {guards : List Guard} {g : Guard}
    (h : PinsCovered ⟨pool, guards⟩) (hload : pool.loadPage B kind p = .ok (g, pool')) :
    PinsCovered ⟨pool', g :: guards⟩ := by
  obtain ⟨f, rest, data, dm, r, -, -, -, -, rfl, rfl⟩ := BufferPoolManager.loadPage_cases hload
  exact PinsCovered.pinned (h.congr (pool.loaded_pinCount p f rest data dm)) kind p f r

theorem PinsCovered.checkPage {pool pool' : BufferPoolManager} {guards : List Guard} {g : Guard}
    (h : PinsCovered ⟨pool, guards⟩) (hcheck : pool.checkPage B order kind p = .ok (g, pool')) :
    PinsCovered ⟨pool', g :: guards⟩ := by
  rcases BufferPoolManager.checkPage_cases hcheck with
    ⟨f, r, -, -, -, rfl, rfl⟩ | ⟨-, -, hload⟩ | ⟨-, -, pool₁, hevict, hload⟩
  · exact h.pinned kind p f r
  · exact h.loadPage hload
  · obtain ⟨f, q, r, p', reply, dm, -, -, -, -, -, rfl⟩ :=
      BufferPoolManager.evictFrame_cases hevict
    exact (h.released p' f r dm).loadPage hload

theorem PinsCovered.dropGuard {g : Guard} {pool' : BufferPoolManager} (h : s.PinsCovered)
    (hg : g ∈ s.guards) (hdrop : s.pool.dropGuard B g = .ok pool') :
    PinsCovered ⟨pool', s.guards.erase g⟩ := by
  intro f
  rw [liveOn_erase hg]
  exact (BufferPoolManager.dropGuard_pinCount hdrop f).trans_le (sub_le_sub_right (h f) _)

theorem step_pinsCovered {call : PoolCall} (h : s.PinsCovered)
    (hstep : step B order call s = some s') : s'.PinsCovered := by
  cases call with
  | newPage =>
      obtain ⟨p, pool, hnew, rfl⟩ := step_newPage.mp hstep
      obtain ⟨-, reply, dm, -, rfl⟩ := BufferPoolManager.newPage_eq_ok.mp hnew
      exact h
  | checkPage kind p =>
      obtain ⟨g, pool, hcheck, rfl⟩ := step_checkPage.mp hstep
      exact PinsCovered.checkPage h hcheck
  | write g data =>
      obtain ⟨-, -, rfl⟩ := step_write.mp hstep
      exact h.congr (s.pool.dataMut_store_pinCount g data)
  | flushGuard g =>
      obtain ⟨-, b, pool, hflush, rfl⟩ := step_flushGuard.mp hstep
      exact h.congr (BufferPoolManager.flushGuard_pinCount hflush)
  | dropGuard g =>
      obtain ⟨hg, pool, hdrop, rfl⟩ := step_dropGuard.mp hstep
      exact h.dropGuard hg hdrop
  | flushPage p =>
      obtain ⟨b, pool, hflush, rfl⟩ := step_flushPage.mp hstep
      rcases BufferPoolManager.flushPage_cases hflush with ⟨-, -, rfl⟩ | ⟨f, -, hflush⟩
      · exact h
      · exact h.congr (BufferPoolManager.flushFrame_pinCount hflush)
  | flushAllPages =>
      obtain ⟨b, pool, hflush, rfl⟩ := step_flushAllPages.mp hstep
      refine BufferPoolManager.flushAllPages_induction
        (J := fun pool => PinsCovered ⟨pool, s.guards⟩) ?_ h hflush
      intro pool pool' p f flushed hJ _ hflush
      exact PinsCovered.congr (s := ⟨pool, s.guards⟩) hJ
        (BufferPoolManager.flushFrame_pinCount hflush)
  | deletePage p =>
      obtain ⟨pool, hdelete, rfl⟩ := step_deletePage.mp hstep
      rcases BufferPoolManager.deletePage_cases hdelete with
        ⟨-, rfl⟩ | ⟨f, -, -, ⟨-, rfl⟩ | ⟨-, reply, dm, -, rfl⟩⟩
      · exact h
      · exact h
      · exact PinsCovered.released h p f _ dm

theorem new_pinsCovered (n : ℕ) (dm : DiskManager) : (new n dm).PinsCovered := fun _ => le_rfl

/-! ### Victims -/

/-- With every frame mapped, one without guards is a victim. -/
theorem Tracked.tracksVictim (h : s.Tracked n) (hpins : s.PinsCovered)
    (hfree : s.pool.freeFrames = []) {f : FrameId} (hlt : f < n) (hlive : s.liveOn f = 0) :
    s.TracksVictim := by
  have ht := h.pool
  obtain ⟨q, hq⟩ : ∃ q, s.pool.pageTable.lookup q = some f := by
    rcases (ht.partition.cover f).mp hlt with hq | hmem
    · exact hq
    · simp [hfree] at hmem
  have hle := hpins f
  rw [hlive] at hle
  exact ⟨(f, q), ht.mem_iff.mpr hq, ht.marked q f hq hle⟩

/-- Of a run the replacer counts its marks, and the frames are partitioned. -/
theorem run_partition_countsMarks {dm : DiskManager} {calls : List PoolCall}
    (hrun : run (step B order) calls (.new n dm) = some s) :
    s.pool.Partition n ∧ s.pool.arcReplacer.CountsMarks B := by
  refine ⟨run_invariant (J := fun s => s.pool.Partition n) (fun _ _ _ => step_partition)
    (BufferPoolManager.new_partition n dm) hrun, ?_⟩
  obtain ⟨arcCalls, harc⟩ := run_issues hrun
  exact run_invariant (fun _ _ _ => ArcReplacer.step_countsMarks)
    (ArcReplacer.new_countsMarks B n) harc

/-- **A victim is tracked** wherever a frame has no guard, in the runs no
delete of which unmaps a page. -/
theorem run_tracksVictim {dm : DiskManager} {calls : List PoolCall}
    (hrun : run (step B order) calls (.new n dm) = some s)
    (hcalls : Along (step B order) UnmapsNothing [] calls (.new n dm))
    (hfree : s.pool.freeFrames = []) {f : FrameId} (hlt : f < n) (hlive : s.liveOn f = 0) :
    s.TracksVictim := by
  have hthroughout : Throughout (step B order) (fun _ s => s.Tracked n) [] calls
      (.new n dm) := by
    refine throughout_of_along ?_ (new_tracked n dm) hcalls
    intro hist c s s' h hc hstep
    exact step_tracked h hc hstep
  have hpins : s.PinsCovered :=
    run_invariant (fun _ _ _ => step_pinsCovered) (new_pinsCovered n dm) hrun
  exact (hthroughout.last hrun).tracksVictim hpins hfree hlt hlive

end Requests

end Session

end StorageEngine
