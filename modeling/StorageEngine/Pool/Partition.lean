import StorageEngine.Pool.Calls
import StorageEngine.Disk.Calls

/-!
Where the frames are: each is either mapped by one page or free, once.

The invariant is one permutation of lists, which every building block of
the calls rewrites; what it says of the page table and of the free list is
read off at the end.
-/

namespace StorageEngine

open Lib

namespace BufferPoolManager

/-- The frames of the resident pages. -/
def mappedFrames (bpm : BufferPoolManager) : List FrameId :=
  bpm.pageTable.entries.map (·.2)

/-- The mapped and the free frames are the `n` frames of the pool, and the
replacer knows no other. -/
structure Partition (n : ℕ) (bpm : BufferPoolManager) : Prop where
  numFrames : bpm.numFrames = n
  frames : (bpm.mappedFrames ++ bpm.freeFrames).Perm (List.range n)
  tracked : ∀ e ∈ bpm.arcReplacer.mru ++ bpm.arcReplacer.mfu, e.1 < n

section Partition

variable {B : Build} {order : HashOrder} {n : ℕ} {bpm bpm' : BufferPoolManager}

theorem mem_mappedFrames {f : FrameId} :
    f ∈ bpm.mappedFrames ↔ ∃ p, bpm.pageTable.lookup p = some f := by
  simp only [mappedFrames, List.mem_map]
  constructor
  · rintro ⟨⟨p, f'⟩, hmem, rfl⟩
    exact ⟨p, HashMap.mem_entries_iff.mp hmem⟩
  · rintro ⟨p, hp⟩
    exact ⟨⟨p, f⟩, HashMap.mem_entries_iff.mpr hp, rfl⟩

namespace Partition

theorem nodup (h : bpm.Partition n) : (bpm.mappedFrames ++ bpm.freeFrames).Nodup :=
  h.frames.nodup_iff.mpr List.nodup_range

theorem disjoint (h : bpm.Partition n) {p : PageId} {f : FrameId}
    (hp : bpm.pageTable.lookup p = some f) : f ∉ bpm.freeFrames := by
  intro hf
  exact List.disjoint_of_nodup_append h.nodup (mem_mappedFrames.mpr ⟨p, hp⟩) hf

theorem cover (h : bpm.Partition n) (f : FrameId) :
    f < n ↔ (∃ p, bpm.pageTable.lookup p = some f) ∨ f ∈ bpm.freeFrames := by
  rw [← List.mem_range, ← h.frames.mem_iff, List.mem_append, mem_mappedFrames]

theorem lt (h : bpm.Partition n) {p : PageId} {f : FrameId}
    (hp : bpm.pageTable.lookup p = some f) : f < n :=
  (h.cover f).mpr (Or.inl ⟨p, hp⟩)

theorem injective (h : bpm.Partition n) {p q : PageId} {f : FrameId}
    (hp : bpm.pageTable.lookup p = some f) (hq : bpm.pageTable.lookup q = some f) : p = q := by
  have hnodup : bpm.mappedFrames.Nodup := h.nodup.of_append_left
  have hinj := List.inj_on_of_nodup_map hnodup
    (HashMap.mem_entries_iff.mpr hp) (HashMap.mem_entries_iff.mpr hq) rfl
  exact congrArg Sigma.fst hinj

/-- The number of frames, counted by where they are. -/
theorem length (h : bpm.Partition n) :
    bpm.mappedFrames.length + bpm.freeFrames.length = n := by
  have := h.frames.length_eq
  simpa using this

end Partition

/-! ### The building blocks -/

theorem new_partition (n : ℕ) (dm : DiskManager) : (new n dm).Partition n where
  numFrames := rfl
  frames := by
    show ((List.map _ []) ++ (List.range n).reverse).Perm (List.range n)
    exact List.reverse_perm _
  tracked := by simp [new, ArcReplacer.new]

theorem Partition.congr (h : bpm.Partition n) (hn : bpm'.numFrames = bpm.numFrames)
    (hfree : bpm'.freeFrames = bpm.freeFrames) (htable : bpm'.pageTable = bpm.pageTable)
    (hr : ∀ e ∈ bpm'.arcReplacer.mru ++ bpm'.arcReplacer.mfu,
      e.1 < n) : bpm'.Partition n where
  numFrames := hn.trans h.numFrames
  frames := by
    rw [mappedFrames, htable, hfree]
    exact h.frames
  tracked := hr

theorem Partition.recorded {f : FrameId} {p : PageId} {r : ArcReplacer} (h : bpm.Partition n)
    (hf : f < bpm.numFrames) (hr : bpm.arcReplacer.recordAccess B f p = .ok r) :
    ∀ e ∈ r.mru ++ r.mfu, e.1 < n := by
  intro e he
  rcases (ArcReplacer.recordAccess_recorded hr).mem he with rfl | he
  · exact h.numFrames ▸ hf
  · exact h.tracked e he

theorem Partition.pinned {f : FrameId} {p : PageId} {r : ArcReplacer} (h : bpm.Partition n)
    (hf : f < bpm.numFrames) (hr : bpm.arcReplacer.recordAccess B f p = .ok r) :
    (bpm.pinned f r).Partition n :=
  h.congr rfl rfl rfl (h.recorded hf hr)

theorem Partition.dropGuard {g : Guard} (h : bpm.Partition n)
    (hdrop : bpm.dropGuard B g = .ok bpm') : bpm'.Partition n := by
  rcases dropGuard_cases hdrop with ⟨-, rfl⟩ | ⟨-, r, hr, rfl⟩
  · exact h.congr rfl rfl rfl h.tracked
  · obtain ⟨m, -, rfl⟩ := ArcReplacer.setEvictable_eq_ok.mp hr
    exact h.congr rfl rfl rfl h.tracked

theorem Partition.flushGuard {g : Guard} {flushed : Bool} (h : bpm.Partition n)
    (hflush : bpm.flushGuard g = .ok (flushed, bpm')) : bpm'.Partition n := by
  rcases flushGuard_cases hflush with ⟨-, -, rfl⟩ | ⟨-, -, reply, dm, -, rfl⟩
  · exact h
  · exact h.congr rfl rfl rfl h.tracked

theorem Partition.flushFrame {p : PageId} {f : FrameId} {flushed : Bool} (h : bpm.Partition n)
    (hflush : bpm.flushFrame B p f = .ok (flushed, bpm')) : bpm'.Partition n := by
  obtain ⟨hf, r, r', dm, hr, hr', -, rfl⟩ := flushFrame_cases hflush
  have hrec := h.recorded hf hr
  rcases hr' with ⟨-, rfl⟩ | ⟨-, hr'⟩
  · exact h.congr rfl rfl rfl hrec
  · obtain ⟨m, -, rfl⟩ := ArcReplacer.setEvictable_eq_ok.mp hr'
    exact h.congr rfl rfl rfl hrec

theorem Partition.released {p : PageId} {f : FrameId} {r : ArcReplacer} (h : bpm.Partition n)
    (hp : bpm.pageTable.lookup p = some f)
    (hr : ∀ e ∈ r.mru ++ r.mfu, e ∈ bpm.arcReplacer.mru ++ bpm.arcReplacer.mfu)
    (dm : DiskManager) : (bpm.released p f r dm).Partition n where
  numFrames := h.numFrames
  frames := by
    refine List.Perm.trans ?_ h.frames
    have herase : bpm.mappedFrames.Perm (f :: (bpm.pageTable.erase p).entries.map (·.2)) :=
      (HashMap.entries_perm_erase hp).map fun e : (_ : PageId) × FrameId => e.2
    show ((bpm.pageTable.erase p).entries.map (·.2) ++ f :: bpm.freeFrames).Perm _
    exact List.perm_middle.trans (herase.symm.append_right bpm.freeFrames)
  tracked := fun e he => h.tracked e (hr e he)

theorem Partition.loaded {p : PageId} {f : FrameId} {rest : List FrameId} (h : bpm.Partition n)
    (hp : bpm.pageTable.lookup p = none) (hfree : bpm.freeFrames = f :: rest) (data : Page)
    (dm : DiskManager) : (bpm.loaded p f rest data dm).Partition n where
  numFrames := h.numFrames
  frames := by
    refine List.Perm.trans ?_ h.frames
    have hinsert : (bpm.pageTable.insert p f).entries = ⟨p, f⟩ :: bpm.pageTable.entries :=
      AList.entries_insert_of_notMem (AList.lookup_eq_none.mp hp)
    show ((bpm.pageTable.insert p f).entries.map (·.2) ++ rest).Perm _
    rw [hinsert, hfree]
    exact List.perm_middle.symm
  tracked := h.tracked

theorem Partition.evictFrame (h : bpm.Partition n)
    (hevict : bpm.evictFrame B order = .ok bpm') : bpm'.Partition n := by
  obtain ⟨f, p, r, q, reply, dm, -, hev, -, hq, -, rfl⟩ := evictFrame_cases hevict
  exact h.released hq (fun e he => hev.perm.mem_iff.mpr (List.mem_cons_of_mem _ he)) dm

/-- An eviction unmaps pages and maps none. -/
theorem evictFrame_lookup {p : PageId} (hevict : bpm.evictFrame B order = .ok bpm')
    (hp : bpm.pageTable.lookup p = none) : bpm'.pageTable.lookup p = none := by
  obtain ⟨f, p', r, q, reply, dm, -, -, -, -, -, rfl⟩ := evictFrame_cases hevict
  show (bpm.pageTable.erase q).lookup p = none
  rw [HashMap.lookup_erase_eq, hp]
  split <;> rfl

theorem Partition.loadPage {kind : GuardKind} {p : PageId} {g : Guard} (h : bpm.Partition n)
    (hp : bpm.pageTable.lookup p = none) (hload : bpm.loadPage B kind p = .ok (g, bpm')) :
    bpm'.Partition n := by
  obtain ⟨f, rest, data, dm, r, hfree, hf, -, hr, -, rfl⟩ := loadPage_cases hload
  exact (h.loaded hp hfree data dm).pinned hf hr

theorem Partition.checkPage {kind : GuardKind} {p : PageId} {g : Guard} (h : bpm.Partition n)
    (hcheck : bpm.checkPage B order kind p = .ok (g, bpm')) : bpm'.Partition n := by
  rcases checkPage_cases hcheck with ⟨f, r, -, hf, hr, -, rfl⟩ | ⟨hp, -, hload⟩ |
    ⟨hp, -, bpm₁, hevict, hload⟩
  · exact h.pinned hf hr
  · exact h.loadPage hp hload
  · exact (h.evictFrame hevict).loadPage (evictFrame_lookup hevict hp) hload

/-- A check takes at most one frame off the free list, the one its guard is
on. -/
theorem checkPage_freeFrames {kind : GuardKind} {p : PageId} {g : Guard}
    (h : bpm.Partition n) (hcheck : bpm.checkPage B order kind p = .ok (g, bpm')) :
    bpm'.freeFrames ⊆ bpm.freeFrames ∧ g.frameId ∉ bpm'.freeFrames := by
  rcases checkPage_cases hcheck with ⟨f, r, hp, -, -, rfl, rfl⟩ | ⟨hp, -, hload⟩ |
    ⟨hp, hfree, bpm₁, hevict, hload⟩
  · exact ⟨List.Subset.refl _, h.disjoint hp⟩
  · obtain ⟨f, rest, data, dm, r, hfree, -, -, -, rfl, rfl⟩ := loadPage_cases hload
    have hnodup := h.nodup.of_append_right
    rw [hfree, List.nodup_cons] at hnodup
    show rest ⊆ bpm.freeFrames ∧ f ∉ rest
    rw [hfree]
    exact ⟨List.subset_cons_self f rest, hnodup.1⟩
  · obtain ⟨f, p', r, q, reply, dm, -, -, -, -, -, rfl⟩ := evictFrame_cases hevict
    obtain ⟨f', rest, data, dm, r', hfree', -, -, -, rfl, rfl⟩ := loadPage_cases hload
    obtain ⟨rfl, rfl⟩ : f = f' ∧ bpm.freeFrames = rest := by
      simpa [released] using hfree'
    show bpm.freeFrames ⊆ bpm.freeFrames ∧ f ∉ bpm.freeFrames
    exact ⟨List.Subset.refl _, by simp [hfree]⟩

theorem dropGuard_freeFrames {g : Guard} (hdrop : bpm.dropGuard B g = .ok bpm') :
    bpm'.freeFrames = bpm.freeFrames := by
  rcases dropGuard_cases hdrop with ⟨-, rfl⟩ | ⟨-, r, -, rfl⟩ <;> rfl

theorem Partition.deletePage {p : PageId} (h : bpm.Partition n)
    (hdelete : bpm.deletePage p = .ok bpm') : bpm'.Partition n := by
  rcases deletePage_cases hdelete with ⟨-, rfl⟩ | ⟨f, hp, -, ⟨-, rfl⟩ | ⟨-, reply, dm, -, rfl⟩⟩
  · exact h
  · exact h
  · exact h.released hp (fun e he => (ArcReplacer.remove_sublist _ f).subset he) dm

end Partition

end BufferPoolManager

namespace Session

variable {B : Build} {order : HashOrder} {n : ℕ} {s s' : Session}

/-- Every call keeps the partition. -/
theorem step_partition {c : PoolCall} (h : s.pool.Partition n)
    (hstep : step B order c s = some s') : s'.pool.Partition n := by
  cases c with
  | newPage =>
      obtain ⟨p, pool, hnew, rfl⟩ := step_newPage.mp hstep
      obtain ⟨-, reply, dm, -, rfl⟩ := BufferPoolManager.newPage_eq_ok.mp hnew
      exact h.congr rfl rfl rfl h.tracked
  | checkPage kind p =>
      obtain ⟨g, pool, hcheck, rfl⟩ := step_checkPage.mp hstep
      exact h.checkPage hcheck
  | write g data =>
      obtain ⟨-, -, rfl⟩ := step_write.mp hstep
      exact h.congr rfl rfl rfl h.tracked
  | flushGuard g =>
      obtain ⟨-, b, pool, hflush, rfl⟩ := step_flushGuard.mp hstep
      exact h.flushGuard hflush
  | dropGuard g =>
      obtain ⟨-, pool, hdrop, rfl⟩ := step_dropGuard.mp hstep
      exact h.dropGuard hdrop
  | flushPage p =>
      obtain ⟨b, pool, hflush, rfl⟩ := step_flushPage.mp hstep
      rcases BufferPoolManager.flushPage_cases hflush with ⟨-, -, rfl⟩ | ⟨f, -, hflush⟩
      · exact h
      · exact h.flushFrame hflush
  | flushAllPages =>
      obtain ⟨b, pool, hflush, rfl⟩ := step_flushAllPages.mp hstep
      exact BufferPoolManager.flushAllPages_induction
        (fun _ _ _ _ _ hJ _ hflush => hJ.flushFrame hflush) h hflush
  | deletePage p =>
      obtain ⟨pool, hdelete, rfl⟩ := step_deletePage.mp hstep
      exact h.deletePage hdelete

end Session

/-! ### What the partition says -/

namespace BufferPoolManager

variable {n : ℕ} {bpm : BufferPoolManager}

/-- Each of the frames `0..n-1`, and no other, is mapped by one page or free. -/
structure FramesPartitioned (n : ℕ) (bpm : BufferPoolManager) : Prop where
  injective : ∀ p q f, bpm.pageTable.lookup p = some f → bpm.pageTable.lookup q = some f → p = q
  nodup : bpm.freeFrames.Nodup
  disjoint : ∀ p f, bpm.pageTable.lookup p = some f → f ∉ bpm.freeFrames
  cover : ∀ f, f < n ↔ (∃ p, bpm.pageTable.lookup p = some f) ∨ f ∈ bpm.freeFrames

/-- What the eviction block relies on: the frame `evict` returns is mapped by
exactly one page, which the search of the page table finds, and it is the
frame popped next. -/
def EvictsMapped (B : Build) (order : HashOrder) (bpm : BufferPoolManager) : Prop :=
  ∀ f r, bpm.freeFrames = [] → bpm.arcReplacer.evict B = .ok (some f, r) →
    (∃! p, bpm.pageTable.lookup p = some f) ∧
    ((order.entries bpm.pageTable).find? fun e => e.2 = f).isSome ∧
    ∀ bpm', bpm.evictFrame B order = .ok bpm' → bpm'.freeFrames.head? = some f

theorem Partition.framesPartitioned (h : bpm.Partition n) : bpm.FramesPartitioned n where
  injective := fun _ _ _ hp hq => h.injective hp hq
  nodup := h.nodup.of_append_right
  disjoint := fun _ _ hp => h.disjoint hp
  cover := h.cover

theorem Partition.evictsMapped (h : bpm.Partition n) (B : Build) (order : HashOrder) :
    bpm.EvictsMapped B order := by
  intro f r hfree hevict
  have hf : f < n := by
    rcases ArcReplacer.evict_cases hevict with ⟨hnone, -⟩ | ⟨f', p, hsome, hev⟩
    · simp at hnone
    · obtain rfl := Option.some.inj hsome
      exact h.tracked _ hev.mem
  obtain ⟨p, hp⟩ : ∃ p, bpm.pageTable.lookup p = some f := by
    rcases (h.cover f).mp hf with hp | hmem
    · exact hp
    · simp [hfree] at hmem
  refine ⟨⟨p, hp, fun q hq => h.injective hq hp⟩, ?_, ?_⟩
  · rw [List.find?_isSome]
    refine ⟨(p, f), (order.perm _).mem_iff.mpr ?_, by simp⟩
    exact List.mem_map.mpr ⟨⟨p, f⟩, HashMap.mem_entries_iff.mpr hp, rfl⟩
  · intro bpm' hbpm'
    obtain ⟨f', p', r', q, reply, dm, hevict', -, -, -, -, rfl⟩ := evictFrame_cases hbpm'
    obtain ⟨hf', -⟩ := ok_pair_unique hevict hevict'
    exact hf'.symm

end BufferPoolManager

namespace Session

/-- **The frames are partitioned** between the page table and the free list
in every state a session reaches, whatever ids it asks for and whatever the
disk does. -/
theorem frames_partitioned (B : Build) (order : HashOrder) (n : ℕ) (dm : DiskManager)
    (calls : List PoolCall) (s : Session)
    (hrun : run (step B order) calls (.new n dm) = some s) :
    s.pool.FramesPartitioned n ∧ s.pool.EvictsMapped B order := by
  have h : s.pool.Partition n :=
    run_invariant (J := fun s => s.pool.Partition n) (fun _ _ _ => step_partition)
      (BufferPoolManager.new_partition n dm) hrun
  exact ⟨h.framesPartitioned, h.evictsMapped B order⟩

/-- Two pages in turn through one frame. -/
theorem frames_partitioned_one_frame :
    ∃ s, run (step ⟨true⟩ .listed) [.newPage, .newPage, .checkPage .write 0,
        .dropGuard ⟨.write, 0, 0⟩, .checkPage .read 1]
        (.new 1 (.fresh DiskManager.blankFile)) = some s ∧
      s.pool.FramesPartitioned 1 ∧ s.pool.EvictsMapped ⟨true⟩ .listed := by
  obtain ⟨s, hs⟩ := Option.isSome_iff_exists.mp (by decide +kernel :
    (run (step ⟨true⟩ .listed) [.newPage, .newPage, .checkPage .write 0,
      .dropGuard ⟨.write, 0, 0⟩, .checkPage .read 1]
      (.new 1 (.fresh DiskManager.blankFile))).isSome = true)
  exact ⟨s, hs, frames_partitioned _ _ 1 _ _ s hs⟩

end Session

end StorageEngine
