import StorageEngine.Pool.Durable
import StorageEngine.Pool.Requests

/-!
The locks of the frames.

`data()` and `data_mut()` hand out the bytes of a frame under its `RwLock`,
and their caller may keep the borrow while it makes other calls. A call that
needs the lock against a borrow waits for it and does not return. One that
returns does what it does without locks, so that every run with borrows is a
run of the pool.
-/

namespace StorageEngine

open Lib

/-- How the lock of a frame is taken: by `read()` or by `write()`. -/
inductive LockMode
  | read
  | write
  deriving DecidableEq, Repr

/-- A guard that lent the bytes of its frame, through `data()` or through
`data_mut()`. The `data()` borrows of one guard are one, which ends with the
last of them. -/
structure Borrow where
  guard : Guard
  mode : LockMode
  deriving DecidableEq

/-- Two borrows can be held together. -/
def Borrow.Shares (b b' : Borrow) : Prop :=
  b.guard.frameId = b'.guard.frameId → b.mode = .read ∧ b'.mode = .read

instance : Std.Symm Borrow.Shares := ⟨fun _ _ h heq => (h heq.symm).symm⟩

/-- A session and the borrows its callers hold. -/
structure LockedSession where
  session : Session
  borrows : List Borrow

inductive LockCall
  /-- a call of the pool or of a guard -/
  | pool (call : PoolCall)
  /-- `data()` or `data_mut()` -/
  | borrow (guard : Guard) (mode : LockMode)
  /-- bytes stored through a borrow that `data_mut()` gave -/
  | store (borrow : Borrow) (data : Page)
  /-- the borrow is dropped -/
  | release (borrow : Borrow)

/-- The guard that goes out of scope. -/
def PoolCall.dropped : PoolCall → Option Guard
  | .dropGuard guard => some guard
  | _ => none

namespace BufferPoolManager

/-- The frame a request reads the page into, a free one or that of the victim;
none where the page is resident. -/
def filled (B : Build) (bpm : BufferPoolManager) (pageId : PageId) : Option FrameId :=
  match bpm.pageTable.lookup pageId, bpm.freeFrames, bpm.arcReplacer.evict B with
  | none, f :: _, _ => some f
  | none, [], .ok (some f, _) => some f
  | _, _, _ => none

/-- `flush()` locks the frame if it is dirty. -/
def flushLocks (bpm : BufferPoolManager) (frameId : FrameId) : List (FrameId × LockMode) :=
  if (bpm.frames frameId).isDirty then [(frameId, .read)] else []

/-- The locks a call takes before it returns. -/
def locks (B : Build) (bpm : BufferPoolManager) : PoolCall → List (FrameId × LockMode)
  -- `copy_from_slice`, and `reset()` before it where the frame is that of a victim
  | .checkPage _ p => (bpm.filled B p).toList.map fun f => (f, .write)
  | .write g _ => [(g.frameId, .write)]
  | .flushGuard g => bpm.flushLocks g.frameId
  | .flushPage p => (bpm.pageTable.lookup p).toList.flatMap bpm.flushLocks
  | .flushAllPages => (bpm.pageTable.entries.map fun e => e.2).flatMap bpm.flushLocks
  -- `reset()`
  | .deletePage p => ((bpm.pageTable.lookup p).toList.filter
      fun f => (bpm.frames f).pinCount = 0).map fun f => (f, .write)
  | .newPage => []
  | .dropGuard _ => []

end BufferPoolManager

/-- What of a frame no call changes that does not lock it. -/
def FrameHeader.bytes (header : FrameHeader) : Page × Bool := (header.data, header.isDirty)

/-! ### Nothing is changed behind a lock -/

namespace BufferPoolManager

variable {B : Build} {order : HashOrder} {bpm bpm' : BufferPoolManager} {kind : GuardKind}
  {p : PageId} {g : Guard} {f : FrameId}

theorem pinned_bytes (bpm : BufferPoolManager) (f : FrameId) (r : ArcReplacer) (f' : FrameId) :
    ((bpm.pinned f r).frames f').bytes = (bpm.frames f').bytes :=
  update_field FrameHeader.bytes (by rfl) f'

theorem loadPage_bytes (h : bpm.loadPage B kind p = .ok (g, bpm'))
    (hf : bpm.freeFrames.head? ≠ some f) : (bpm'.frames f).bytes = (bpm.frames f).bytes := by
  obtain ⟨f', rest, data, dm, r, hfree, -, -, -, -, rfl⟩ := loadPage_cases h
  have hne : f ≠ f' := by
    rintro rfl
    exact hf (by rw [hfree, List.head?_cons])
  rw [pinned_bytes]
  exact congrArg FrameHeader.bytes (Function.update_of_ne hne _ _)

theorem checkPage_bytes (h : bpm.checkPage B order kind p = .ok (g, bpm'))
    (hf : bpm.filled B p ≠ some f) : (bpm'.frames f).bytes = (bpm.frames f).bytes := by
  rcases checkPage_cases h with ⟨f', r, -, -, -, -, rfl⟩ | ⟨hp, hfree, hload⟩ |
    ⟨hp, hfree, bpm₁, hevict, hload⟩
  · exact bpm.pinned_bytes f' r f
  · apply loadPage_bytes hload
    intro hhead
    obtain ⟨rest, hcons⟩ := List.head?_eq_some_iff.mp hhead
    exact hf (by rw [filled, hp, hcons])
  · obtain ⟨f', p', r, q, reply, dm, hvictim, -, -, -, -, rfl⟩ := evictFrame_cases hevict
    have hne : f ≠ f' := by
      rintro rfl
      exact hf (by rw [filled, hp, hfree, hvictim])
    rw [loadPage_bytes hload (by simpa [released] using hne.symm)]
    exact congrArg FrameHeader.bytes (Function.update_of_ne hne _ _)

theorem flushGuard_bytes {flushed : Bool} (h : bpm.flushGuard g = .ok (flushed, bpm'))
    (hf : (f, .read) ∉ bpm.flushLocks g.frameId) :
    (bpm'.frames f).bytes = (bpm.frames f).bytes := by
  rcases flushGuard_cases h with ⟨-, -, rfl⟩ | ⟨hdirty, -, reply, dm, -, rfl⟩
  · rfl
  · have hne : f ≠ g.frameId := by
      rintro rfl
      exact hf (by simp [flushLocks, hdirty])
    exact congrArg FrameHeader.bytes (Function.update_of_ne hne _ _)

theorem flushFrame_bytes {f' : FrameId} {flushed : Bool}
    (h : bpm.flushFrame B p f' = .ok (flushed, bpm')) (hf : (f, .read) ∉ bpm.flushLocks f') :
    (bpm'.frames f).bytes = (bpm.frames f).bytes := by
  obtain ⟨-, r, r', dm, -, -, -, rfl⟩ := flushFrame_cases h
  by_cases hne : f = f'
  · subst f'
    have hclean : (bpm.frames f).isDirty = false := by simpa [flushLocks] using hf
    exact update_field FrameHeader.bytes (by simp [FrameHeader.bytes, hclean]) f
  · exact congrArg FrameHeader.bytes (Function.update_of_ne hne _ _)

/-- The loop of `flush_all_pages` leaves a frame alone that is clean, or that
no page is mapped to. -/
theorem flushAllPages_bytes {flushed : Bool}
    (h : bpm.flushAllPages B order = .ok (flushed, bpm'))
    (hf : (f, .read) ∉ bpm.locks B .flushAllPages) :
    (bpm'.frames f).bytes = (bpm.frames f).bytes := by
  have hlocks : ∀ p f', bpm.pageTable.lookup p = some f' → (f, .read) ∉ bpm.flushLocks f' := by
    intro p f' hp hmem
    apply hf
    simp only [locks, List.mem_flatMap, List.mem_map]
    exact ⟨f', ⟨⟨p, f'⟩, AList.mem_lookup_iff.mp hp, rfl⟩, hmem⟩
  suffices hJ : bpm'.pageTable = bpm.pageTable ∧
      (bpm'.frames f).bytes = (bpm.frames f).bytes from hJ.2
  refine flushAllPages_induction (J := fun pool => pool.pageTable = bpm.pageTable ∧
    (pool.frames f).bytes = (bpm.frames f).bytes) ?_ ⟨rfl, rfl⟩ h
  rintro pool pool' p f' flushed ⟨htable, hbytes⟩ hp hflush
  refine ⟨(flushFrame_samePages hflush).1.trans htable, Eq.trans ?_ hbytes⟩
  apply flushFrame_bytes hflush
  rw [htable] at hp
  by_cases hne : f' = f
  · subst f'
    have hsame : (pool.frames f).isDirty = (bpm.frames f).isDirty := congrArg Prod.snd hbytes
    simpa only [flushLocks, hsame] using hlocks p f hp
  · simp only [flushLocks]
    split
    · simp [Ne.symm hne]
    · exact List.not_mem_nil

end BufferPoolManager

namespace Session

variable {B : Build} {order : HashOrder} {s s' : Session} {call : PoolCall} {f : FrameId}

/-- **A call changes the bytes and the dirty flag of no frame it does not
lock.** -/
theorem step_bytes (hstep : step B order call s = some s')
    (hf : ∀ mode, (f, mode) ∉ s.pool.locks B call) :
    (s'.pool.frames f).bytes = (s.pool.frames f).bytes := by
  cases call with
  | newPage =>
      obtain ⟨p, pool, hnew, rfl⟩ := step_newPage.mp hstep
      obtain ⟨-, reply, dm, -, rfl⟩ := BufferPoolManager.newPage_eq_ok.mp hnew
      rfl
  | checkPage kind p =>
      obtain ⟨g, pool, hcheck, rfl⟩ := step_checkPage.mp hstep
      apply BufferPoolManager.checkPage_bytes hcheck
      intro hfilled
      exact hf .write (by simp [BufferPoolManager.locks, hfilled])
  | write g data =>
      obtain ⟨-, -, rfl⟩ := step_write.mp hstep
      have hne : f ≠ g.frameId := by
        rintro rfl
        exact hf .write (by simp [BufferPoolManager.locks])
      refine congrArg FrameHeader.bytes ((Function.update_of_ne hne _ _).trans ?_)
      exact Function.update_of_ne hne _ _
  | flushGuard g =>
      obtain ⟨-, b, pool, hflush, rfl⟩ := step_flushGuard.mp hstep
      exact BufferPoolManager.flushGuard_bytes hflush (hf .read)
  | dropGuard g =>
      obtain ⟨-, pool, hdrop, rfl⟩ := step_dropGuard.mp hstep
      rcases BufferPoolManager.dropGuard_cases hdrop with ⟨-, rfl⟩ | ⟨-, r, -, rfl⟩
      · exact BufferPoolManager.update_field FrameHeader.bytes (by rfl) f
      · exact BufferPoolManager.update_field FrameHeader.bytes (by rfl) f
  | flushPage p =>
      obtain ⟨b, pool, hflush, rfl⟩ := step_flushPage.mp hstep
      rcases BufferPoolManager.flushPage_cases hflush with ⟨-, -, rfl⟩ | ⟨f', hp, hflush⟩
      · rfl
      · apply BufferPoolManager.flushFrame_bytes hflush
        simpa [BufferPoolManager.locks, hp] using hf .read
  | flushAllPages =>
      obtain ⟨b, pool, hflush, rfl⟩ := step_flushAllPages.mp hstep
      exact BufferPoolManager.flushAllPages_bytes hflush (hf .read)
  | deletePage p =>
      obtain ⟨pool, hdelete, rfl⟩ := step_deletePage.mp hstep
      rcases BufferPoolManager.deletePage_cases hdelete with
        ⟨-, rfl⟩ | ⟨f', hp, -, ⟨-, rfl⟩ | ⟨hzero, reply, dm, -, rfl⟩⟩
      · rfl
      · rfl
      · have hne : f ≠ f' := by
          rintro rfl
          exact hf .write (by simp [BufferPoolManager.locks, hp, hzero])
        exact congrArg FrameHeader.bytes (Function.update_of_ne hne _ _)

/-- A call that locks a frame for reading at most leaves its bytes. -/
theorem step_data (hstep : step B order call s = some s')
    (hf : (f, .write) ∉ s.pool.locks B call) :
    (s'.pool.frames f).data = (s.pool.frames f).data := by
  by_cases hread : (f, .read) ∈ s.pool.locks B call
  · -- only a flush locks a frame for reading
    have hflush : ∃ p, call.Flushes p := by
      cases call with
      | flushGuard g => exact ⟨g.pageId, rfl⟩
      | flushPage p => exact ⟨p, rfl⟩
      | flushAllPages => exact ⟨0, trivial⟩
      | _ => simp [BufferPoolManager.locks] at hread
    obtain ⟨p, hp⟩ := hflush
    exact (step_flush_samePages hp hstep).2 f
  · refine congrArg Prod.fst (step_bytes hstep fun mode => ?_)
    cases mode with
    | read => exact hread
    | write => exact hf

/-- A page mapped to a frame that is not locked for writing stays mapped. -/
theorem step_lookup (hstep : step B order call s = some s')
    (hf : (f, .write) ∉ s.pool.locks B call) {q : PageId}
    (hq : s.pool.pageTable.lookup q = some f) : s'.pool.pageTable.lookup q = some f := by
  cases call with
  | newPage =>
      obtain ⟨p, pool, hnew, rfl⟩ := step_newPage.mp hstep
      obtain ⟨-, reply, dm, -, rfl⟩ := BufferPoolManager.newPage_eq_ok.mp hnew
      exact hq
  | checkPage kind p =>
      obtain ⟨g, pool, hcheck, rfl⟩ := step_checkPage.mp hstep
      obtain ⟨-, -, hkeep⟩ := BufferPoolManager.checkPage_lookup hcheck
      rcases hkeep q f hq with hkept | ⟨hp, hfree, r, hr⟩
      · exact hkept
      · -- the frame would be that of the victim
        exact absurd (by simp [BufferPoolManager.locks, BufferPoolManager.filled, hp, hfree, hr]) hf
  | write g data =>
      obtain ⟨-, -, rfl⟩ := step_write.mp hstep
      exact hq
  | flushGuard g =>
      have hflush : (PoolCall.flushGuard g).Flushes g.pageId := rfl
      rw [(step_flush_samePages hflush hstep).1]
      exact hq
  | dropGuard g =>
      obtain ⟨-, pool, hdrop, rfl⟩ := step_dropGuard.mp hstep
      rcases BufferPoolManager.dropGuard_cases hdrop with ⟨-, rfl⟩ | ⟨-, r, -, rfl⟩
      · exact hq
      · exact hq
  | flushPage p =>
      have hflush : (PoolCall.flushPage p).Flushes p := rfl
      rw [(step_flush_samePages hflush hstep).1]
      exact hq
  | flushAllPages =>
      have hflush : (PoolCall.flushAllPages).Flushes q := trivial
      rw [(step_flush_samePages hflush hstep).1]
      exact hq
  | deletePage p =>
      obtain ⟨pool, hdelete, rfl⟩ := step_deletePage.mp hstep
      rcases BufferPoolManager.deletePage_cases hdelete with
        ⟨-, rfl⟩ | ⟨f', hp, -, ⟨-, rfl⟩ | ⟨hzero, reply, dm, -, rfl⟩⟩
      · exact hq
      · exact hq
      · refine HashMap.lookup_erase_eq_some.mpr ⟨?_, hq⟩
        rintro rfl
        obtain rfl : f' = f := Option.some.inj (hp.symm.trans hq)
        exact hf (by simp [BufferPoolManager.locks, hp, hzero])

/-- No guard is lost but the one dropped. -/
theorem step_count (hstep : step B order call s = some s') (g : Guard) :
    s.guards.count g ≤ s'.guards.count g + if call.dropped = some g then 1 else 0 := by
  cases call with
  | newPage =>
      obtain ⟨p, pool, -, rfl⟩ := step_newPage.mp hstep
      exact Nat.le_add_right _ _
  | checkPage kind p =>
      obtain ⟨g', pool, -, rfl⟩ := step_checkPage.mp hstep
      exact (List.count_le_count_cons).trans (Nat.le_add_right _ _)
  | write g' data =>
      obtain ⟨-, -, rfl⟩ := step_write.mp hstep
      exact Nat.le_add_right _ _
  | flushGuard g' =>
      obtain ⟨-, b, pool, -, rfl⟩ := step_flushGuard.mp hstep
      exact Nat.le_add_right _ _
  | dropGuard g' =>
      obtain ⟨-, pool, -, rfl⟩ := step_dropGuard.mp hstep
      show _ ≤ (s.guards.erase g').count g + _
      rw [List.count_erase]
      simp only [PoolCall.dropped, Option.some.injEq, beq_iff_eq]
      omega
  | flushPage p =>
      obtain ⟨b, pool, -, rfl⟩ := step_flushPage.mp hstep
      exact Nat.le_add_right _ _
  | flushAllPages =>
      obtain ⟨b, pool, -, rfl⟩ := step_flushAllPages.mp hstep
      exact Nat.le_add_right _ _
  | deletePage p =>
      obtain ⟨pool, -, rfl⟩ := step_deletePage.mp hstep
      exact Nat.le_add_right _ _

end Session

namespace LockedSession

/-- A session on a new pool. -/
def new (numFrames : ℕ) (diskManager : DiskManager) : LockedSession where
  session := .new numFrames diskManager
  borrows := []

/-- The lock can be taken: borrows for reading let others read. -/
def Admits (s : LockedSession) (lock : FrameId × LockMode) : Prop :=
  ∀ b ∈ s.borrows, b.guard.frameId = lock.1 → b.mode = .read ∧ lock.2 = .read

instance (s : LockedSession) (lock : FrameId × LockMode) : Decidable (s.Admits lock) :=
  inferInstanceAs (Decidable (∀ _ ∈ _, _))

/-- The call waits for no lock. -/
def Proceeds (B : Build) (s : LockedSession) (call : PoolCall) : Prop :=
  ∀ lock ∈ s.session.pool.locks B call, s.Admits lock

instance (B : Build) (s : LockedSession) (call : PoolCall) : Decidable (s.Proceeds B call) :=
  inferInstanceAs (Decidable (∀ _ ∈ _, _))

/-- A guard like this one is live and has lent nothing. -/
def Unlent (s : LockedSession) (guard : Guard) : Prop :=
  (s.borrows.map Borrow.guard).count guard < s.session.guards.count guard

instance (s : LockedSession) (guard : Guard) : Decidable (s.Unlent guard) :=
  inferInstanceAs (Decidable (_ < _))

def step (B : Build) (order : HashOrder) : LockCall → LockedSession → Option LockedSession
  | .pool call, s =>
      -- a guard does not go out of scope before the bytes it lent
      if s.Proceeds B call ∧ ∀ guard ∈ call.dropped, s.Unlent guard then do
        let session ← s.session.step B order call
        return { s with session }
      else none
  | .borrow guard .read, s =>
      if s.Unlent guard ∧ s.Admits (guard.frameId, .read) then
        some { s with borrows := ⟨guard, .read⟩ :: s.borrows }
      else none
  | .borrow guard .write, s =>
      if guard.kind = .write ∧ s.Unlent guard ∧ s.Admits (guard.frameId, .write) then some {
        session := { s.session with pool := s.session.pool.dataMut guard }
        borrows := ⟨guard, .write⟩ :: s.borrows }
      else none
  | .store borrow data, s =>
      if borrow ∈ s.borrows ∧ borrow.mode = .write then some { s with
        session := { s.session with pool := s.session.pool.store borrow.guard data } }
      else none
  | .release borrow, s =>
      if borrow ∈ s.borrows then some { s with borrows := s.borrows.erase borrow } else none

section Calls

variable {B : Build} {order : HashOrder} {s s' : LockedSession}

theorem step_pool {call : PoolCall} : step B order (.pool call) s = some s' ↔
    s.Proceeds B call ∧ (∀ guard ∈ call.dropped, s.Unlent guard) ∧
      ∃ session, s.session.step B order call = some session ∧ s' = ⟨session, s.borrows⟩ := by
  rw [step]
  split
  · next h =>
      show Option.bind _ _ = some s' ↔ _
      rw [Option.bind_eq_some_iff]
      constructor
      · rintro ⟨session, hcall, heq⟩
        exact ⟨h.1, h.2, session, hcall, (Option.some.inj heq).symm⟩
      · rintro ⟨-, -, session, hcall, rfl⟩
        exact ⟨session, hcall, rfl⟩
  · next h =>
      constructor
      · intro hnone
        simp at hnone
      · rintro ⟨hproceeds, hdropped, -⟩
        exact absurd ⟨hproceeds, hdropped⟩ h

theorem step_borrow_read {g : Guard} : step B order (.borrow g .read) s = some s' ↔
    s.Unlent g ∧ s.Admits (g.frameId, .read) ∧ s' = ⟨s.session, ⟨g, .read⟩ :: s.borrows⟩ := by
  simp [step, and_assoc, eq_comm]

theorem step_borrow_write {g : Guard} : step B order (.borrow g .write) s = some s' ↔
    g.kind = .write ∧ s.Unlent g ∧ s.Admits (g.frameId, .write) ∧
      s' = ⟨{ s.session with pool := s.session.pool.dataMut g }, ⟨g, .write⟩ :: s.borrows⟩ := by
  simp [step, and_assoc, eq_comm]

theorem step_store {b : Borrow} {data : Page} : step B order (.store b data) s = some s' ↔
    b ∈ s.borrows ∧ b.mode = .write ∧
      s' = ⟨{ s.session with pool := s.session.pool.store b.guard data }, s.borrows⟩ := by
  simp [step, and_assoc, eq_comm]

theorem step_release {b : Borrow} : step B order (.release b) s = some s' ↔
    b ∈ s.borrows ∧ s' = ⟨s.session, s.borrows.erase b⟩ := by
  simp [step, eq_comm]

end Calls

/-! ### What the locks keep -/

/-- The borrows are those of live guards, one for writing is the only one on
its frame, and its frame is dirty. -/
structure LocksHold (s : LockedSession) : Prop where
  lent : ∀ g, (s.borrows.map Borrow.guard).count g ≤ s.session.guards.count g
  exclusive : s.borrows.Pairwise Borrow.Shares
  writable : ∀ b ∈ s.borrows, b.mode = .write → b.guard.kind = .write ∧
    (s.session.pool.frames b.guard.frameId).isDirty = true

section Locks

variable {B : Build} {order : HashOrder} {s s' : LockedSession}

theorem new_locksHold (n : ℕ) (dm : DiskManager) : (new n dm).LocksHold where
  lent := fun _ => Nat.zero_le _
  exclusive := List.Pairwise.nil
  writable := fun _ hb => absurd hb List.not_mem_nil

theorem LocksHold.mem_guards (h : s.LocksHold) {b : Borrow} (hb : b ∈ s.borrows) :
    b.guard ∈ s.session.guards := by
  have hpos : 0 < (s.borrows.map Borrow.guard).count b.guard :=
    List.count_pos_iff.mpr (List.mem_map_of_mem hb)
  exact List.count_pos_iff.mp (hpos.trans_le (h.lent b.guard))

/-- A call that waits for no lock takes none against a borrow. -/
theorem Proceeds.notMem_locks {call : PoolCall} (h : s.Proceeds B call) {b : Borrow}
    (hb : b ∈ s.borrows) {mode : LockMode} (hmode : b.mode = .write ∨ mode = .write) :
    (b.guard.frameId, mode) ∉ s.session.pool.locks B call := by
  intro hmem
  obtain ⟨hread, hread'⟩ := h _ hmem b hb rfl
  rcases hmode with hwrite | hwrite
  · simp [hread] at hwrite
  · simp [hwrite] at hread'

theorem LocksHold.lend (h : s.LocksHold) {g : Guard} (hg : s.Unlent g) {mode : LockMode}
    {pool : BufferPoolManager} (hmode : s.Admits (g.frameId, mode))
    (hwrite : mode = .write → g.kind = .write ∧ (pool.frames g.frameId).isDirty = true)
    (hdirty : ∀ f, (s.session.pool.frames f).isDirty = true → (pool.frames f).isDirty = true) :
    LocksHold ⟨⟨pool, s.session.guards⟩, ⟨g, mode⟩ :: s.borrows⟩ := by
  refine ⟨fun g' => ?_, List.pairwise_cons.mpr ⟨fun b hb heq => ?_, h.exclusive⟩, ?_⟩
  · have hle := h.lent g'
    have hlt : (s.borrows.map Borrow.guard).count g < s.session.guards.count g := hg
    rw [List.map_cons, List.count_cons]
    simp only [beq_iff_eq]
    split
    · next heq =>
        subst g'
        exact hlt
    · exact hle
  · exact (hmode b hb heq.symm).symm
  · intro b hb hb'
    rcases List.mem_cons.mp hb with rfl | hb
    · exact hwrite hb'
    · obtain ⟨hkind, hmark⟩ := h.writable b hb hb'
      exact ⟨hkind, hdirty _ hmark⟩

theorem step_locksHold {c : LockCall} (h : s.LocksHold) (hstep : step B order c s = some s') :
    s'.LocksHold := by
  cases c with
  | pool call =>
      obtain ⟨hproceeds, hdropped, session, hcall, rfl⟩ := step_pool.mp hstep
      refine ⟨fun g => ?_, h.exclusive, fun b hb hwrite => ?_⟩
      · have hcount := Session.step_count hcall g
        have hle := h.lent g
        split at hcount
        · next hdrop =>
            have hlt : (s.borrows.map Borrow.guard).count g < s.session.guards.count g :=
              hdropped g hdrop
            show (s.borrows.map Borrow.guard).count g ≤ session.guards.count g
            omega
        · exact hle.trans hcount
      · obtain ⟨hkind, hdirty⟩ := h.writable b hb hwrite
        have hbytes := Session.step_bytes hcall fun mode =>
          hproceeds.notMem_locks hb (Or.inl hwrite)
        exact ⟨hkind, (congrArg Prod.snd hbytes).trans hdirty⟩
  | borrow g mode =>
      cases mode with
      | read =>
          obtain ⟨hg, hmode, rfl⟩ := step_borrow_read.mp hstep
          exact h.lend hg hmode (fun hwrite => by simp at hwrite) fun _ => id
      | write =>
          obtain ⟨hkind, hg, hmode, rfl⟩ := step_borrow_write.mp hstep
          have hdirty : ∀ f, f = g.frameId ∨ (s.session.pool.frames f).isDirty = true →
              ((s.session.pool.dataMut g).frames f).isDirty = true := by
            intro f hf
            show (Function.update s.session.pool.frames g.frameId _ f).isDirty = true
            by_cases heq : f = g.frameId
            · rw [heq, Function.update_self]
            · rw [Function.update_of_ne heq]
              exact hf.resolve_left heq
          exact h.lend hg hmode (fun _ => ⟨hkind, hdirty _ (Or.inl rfl)⟩)
            fun f hf => hdirty f (Or.inr hf)
  | store b data =>
      obtain ⟨hb, hwrite, rfl⟩ := step_store.mp hstep
      refine ⟨h.lent, h.exclusive, fun b' hb' hwrite' => ?_⟩
      obtain ⟨hkind, hdirty⟩ := h.writable b' hb' hwrite'
      exact ⟨hkind, (BufferPoolManager.update_field FrameHeader.isDirty (by rfl) _).trans hdirty⟩
  | release b =>
      obtain ⟨hb, rfl⟩ := step_release.mp hstep
      have hsub : (s.borrows.erase b).Sublist s.borrows := List.erase_sublist
      refine ⟨fun g => ?_, h.exclusive.sublist hsub, fun b' hb' => ?_⟩
      · exact ((hsub.map Borrow.guard).count_le g).trans (h.lent g)
      · exact h.writable b' (hsub.subset hb')

/-! ### Runs with borrows are runs of the pool -/

/-- The call of the pool that a step amounts to. A borrow for writing marks
the frame dirty, as a write of the bytes it has does. -/
def poolCall (s : LockedSession) : LockCall → Option PoolCall
  | .pool call => some call
  | .borrow guard .write => some (.write guard (s.session.pool.data guard))
  | .store borrow data => some (.write borrow.guard data)
  | .borrow _ .read => none
  | .release _ => none

/-- The call is not a delete that unmaps a page. -/
def UnmapsNothing (_ : List LockCall) (c : LockCall) (s : LockedSession) : Prop :=
  ∀ call, c = .pool call → Session.UnmapsNothing [] call s.session

theorem UnmapsNothing.poolCall {hist : List LockCall} {c : LockCall}
    (h : UnmapsNothing hist c s) {call : PoolCall} (hcall : s.poolCall c = some call)
    (hist' : List PoolCall) : Session.UnmapsNothing hist' call s.session := by
  cases c with
  | pool call' =>
      obtain rfl := Option.some.inj hcall
      exact h call' rfl
  | borrow g mode =>
      cases mode with
      | read => simp [LockedSession.poolCall] at hcall
      | write =>
          obtain rfl := Option.some.inj hcall
          intro p hp
          simp at hp
  | store b data =>
      obtain rfl := Option.some.inj hcall
      intro p hp
      simp at hp
  | release b => simp [LockedSession.poolCall] at hcall

/-- **A step with borrows is a call of the pool**, or leaves it alone. -/
theorem step_session {c : LockCall} (h : s.LocksHold) (hstep : step B order c s = some s') :
    s.poolCall c = none ∧ s'.session = s.session ∨
      ∃ call, s.poolCall c = some call ∧ s.session.step B order call = some s'.session := by
  cases c with
  | pool call =>
      obtain ⟨-, -, session, hcall, rfl⟩ := step_pool.mp hstep
      exact Or.inr ⟨call, rfl, hcall⟩
  | borrow g mode =>
      cases mode with
      | read =>
          obtain ⟨-, -, rfl⟩ := step_borrow_read.mp hstep
          exact Or.inl ⟨rfl, rfl⟩
      | write =>
          obtain ⟨hkind, hg, -, rfl⟩ := step_borrow_write.mp hstep
          have hmem : g ∈ s.session.guards := by
            apply List.count_pos_iff.mp
            exact (Nat.zero_le _).trans_lt hg
          refine Or.inr ⟨_, rfl, Session.step_write.mpr ⟨hmem, hkind, ?_⟩⟩
          simp [BufferPoolManager.dataMut, BufferPoolManager.store, BufferPoolManager.setFrame,
            BufferPoolManager.data]
  | store b data =>
      obtain ⟨hb, hwrite, rfl⟩ := step_store.mp hstep
      obtain ⟨hkind, hdirty⟩ := h.writable b hb hwrite
      refine Or.inr ⟨_, rfl, Session.step_write.mpr ⟨h.mem_guards hb, hkind, ?_⟩⟩
      simp [BufferPoolManager.dataMut, BufferPoolManager.store, BufferPoolManager.setFrame, hdirty]
  | release b =>
      obtain ⟨-, rfl⟩ := step_release.mp hstep
      exact Or.inl ⟨rfl, rfl⟩

/-- **A run with borrows is a run of the pool**, in which pages are unmapped
as they were. -/
theorem run_session {calls : List LockCall} : ∀ {s s' : LockedSession}, s.LocksHold →
    run (step B order) calls s = some s' → ∃ poolCalls,
      run (Session.step B order) poolCalls s.session = some s'.session ∧
        ∀ hist hist', Along (step B order) UnmapsNothing hist calls s →
          Along (Session.step B order) Session.UnmapsNothing hist' poolCalls s.session := by
  induction calls with
  | nil =>
      intro s s' _ hrun
      obtain rfl : s = s' := by simpa using hrun
      exact ⟨[], rfl, fun _ _ _ => trivial⟩
  | cons c rest ih =>
      intro s s' h hrun
      rw [run_cons, Option.bind_eq_some_iff] at hrun
      obtain ⟨t, hstep, hrun⟩ := hrun
      obtain ⟨poolCalls, hpool, halong⟩ := ih (step_locksHold h hstep) hrun
      rcases step_session h hstep with ⟨-, heq⟩ | ⟨call, hcall, hsession⟩
      · rw [heq] at hpool halong
        exact ⟨poolCalls, hpool, fun hist hist' hcalls =>
          halong (c :: hist) hist' (hcalls t hstep).2⟩
      · refine ⟨call :: poolCalls, by rw [run_cons, hsession]; exact hpool, ?_⟩
        intro hist hist' hcalls session hsession'
        obtain rfl := Option.some.inj (hsession.symm.trans hsession')
        exact ⟨(hcalls t hstep).1.poolCall hcall hist',
          halong (c :: hist) (call :: hist') (hcalls t hstep).2⟩

/-! ### What is lent -/

/-- The borrow lasts, its frame has the bytes it had, and the pages of its frame
are still there. -/
structure Lends (s s' : LockedSession) (b : Borrow) : Prop where
  lent : b ∈ s'.borrows
  data : s'.session.pool.data b.guard = s.session.pool.data b.guard
  mapped : ∀ q, s.session.pool.pageTable.lookup q = some b.guard.frameId →
    s'.session.pool.pageTable.lookup q = some b.guard.frameId

theorem Lends.trans {s'' : LockedSession} {b : Borrow} (h : Lends s s' b) (h' : Lends s' s'' b) :
    Lends s s'' b :=
  ⟨h'.lent, h'.data.trans h.data, fun q hq => h'.mapped q (h.mapped q hq)⟩

/-- A borrow for writing is the only one on its frame. -/
theorem LocksHold.frameId_ne (h : s.LocksHold) {b b' : Borrow} (hb : b ∈ s.borrows)
    (hb' : b' ∈ s.borrows) (hne : b ≠ b') (hwrite : b'.mode = .write) :
    b.guard.frameId ≠ b'.guard.frameId := by
  intro hframe
  have hread := (h.exclusive.forall hb hb' hne hframe).2
  simp [hread] at hwrite

theorem step_lends {c : LockCall} (h : s.LocksHold) (hstep : step B order c s = some s')
    {b : Borrow} (hb : b ∈ s.borrows) (hrelease : c ≠ .release b)
    (hstore : ∀ data, c ≠ .store b data) : Lends s s' b := by
  cases c with
  | pool call =>
      obtain ⟨hproceeds, -, session, hcall, rfl⟩ := step_pool.mp hstep
      have hlocks : (b.guard.frameId, LockMode.write) ∉ s.session.pool.locks B call :=
        hproceeds.notMem_locks hb (Or.inr rfl)
      exact ⟨hb, Session.step_data hcall hlocks, fun q hq => Session.step_lookup hcall hlocks hq⟩
  | borrow g mode =>
      cases mode with
      | read =>
          obtain ⟨-, -, rfl⟩ := step_borrow_read.mp hstep
          exact ⟨List.mem_cons_of_mem _ hb, rfl, fun _ => id⟩
      | write =>
          obtain ⟨-, -, -, rfl⟩ := step_borrow_write.mp hstep
          refine ⟨List.mem_cons_of_mem _ hb, ?_, fun _ => id⟩
          exact BufferPoolManager.update_field FrameHeader.data (by rfl) b.guard.frameId
  | store b' data =>
      obtain ⟨hb', hwrite, rfl⟩ := step_store.mp hstep
      have hne : b ≠ b' := by
        rintro rfl
        exact hstore data rfl
      have hframe := h.frameId_ne hb hb' hne hwrite
      exact ⟨hb, congrArg FrameHeader.data (Function.update_of_ne hframe _ _), fun _ => id⟩
  | release b' =>
      obtain ⟨hb', rfl⟩ := step_release.mp hstep
      have hne : b ≠ b' := by
        rintro rfl
        exact hrelease rfl
      exact ⟨(List.mem_erase_of_ne hne).mpr hb, rfl, fun _ => id⟩

theorem run_lends {calls : List LockCall} : ∀ {s s' : LockedSession}, s.LocksHold →
    run (step B order) calls s = some s' → ∀ {b : Borrow}, b ∈ s.borrows →
      (∀ c ∈ calls, c ≠ .release b ∧ ∀ data, c ≠ .store b data) → Lends s s' b := by
  induction calls with
  | nil =>
      intro s s' _ hrun b hb _
      obtain rfl : s = s' := by simpa using hrun
      exact ⟨hb, rfl, fun _ => id⟩
  | cons c rest ih =>
      intro s s' h hrun b hb hcalls
      rw [run_cons, Option.bind_eq_some_iff] at hrun
      obtain ⟨t, hstep, hrun⟩ := hrun
      obtain ⟨hrelease, hstore⟩ := hcalls c List.mem_cons_self
      have hlends := step_lends h hstep hb hrelease hstore
      exact hlends.trans (ih (step_locksHold h hstep) hrun hlends.lent
        fun c' hc' => hcalls c' (List.mem_cons_of_mem c hc'))

end Locks

/-- **What is lent stays**: from a state of any run on, no call changes the
bytes of a frame that a borrow holds, nor what is mapped to the frame, until
the borrow ends or stores into it. -/
theorem lends_run (B : Build) (order : HashOrder) (n : ℕ) (dm : DiskManager)
    (calls calls' : List LockCall) (s s' : LockedSession)
    (hrun : run (step B order) calls (.new n dm) = some s)
    (hrun' : run (step B order) calls' s = some s') (b : Borrow) (hb : b ∈ s.borrows)
    (hcalls' : ∀ c ∈ calls', c ≠ .release b ∧ ∀ data, c ≠ .store b data) : Lends s s' b :=
  run_lends (run_invariant (fun _ _ _ => step_locksHold) (new_locksHold n dm) hrun) hrun' hb hcalls'

/-- Page 0 is written, and its bytes stay lent. -/
def lendingCalls : List LockCall :=
  [.pool .newPage, .pool .newPage, .pool .newPage, .pool (.checkPage .write 0),
    .borrow ⟨.write, 0, 1⟩ .write, .store ⟨⟨.write, 0, 1⟩, .write⟩ (.ofFn pageSize fun _ => 1)]

/-- Meanwhile page 2 takes the place of page 1. -/
def meanwhileCalls : List LockCall :=
  [.pool (.checkPage .read 1), .pool (.dropGuard ⟨.read, 1, 0⟩), .pool (.checkPage .read 2),
    .pool (.deletePage 0)]

theorem lends_run_evict :
    ∃ s s', run (step ⟨true⟩ .listed) lendingCalls (.new 2 (.fresh DiskManager.blankFile)) =
        some s ∧ run (step ⟨true⟩ .listed) meanwhileCalls s = some s' ∧
      Lends s s' ⟨⟨.write, 0, 1⟩, .write⟩ := by
  have hrun : (run (step ⟨true⟩ .listed) lendingCalls
      (.new 2 (.fresh DiskManager.blankFile))).map
      (fun s => (s.borrows, (run (step ⟨true⟩ .listed) meanwhileCalls s).isSome)) =
      some ([⟨⟨.write, 0, 1⟩, .write⟩], true) := by
    decide +kernel
  obtain ⟨s, hs, hresult⟩ := Option.map_eq_some_iff.mp hrun
  obtain ⟨hborrows, hsome⟩ := Prod.mk.inj hresult
  obtain ⟨s', hs'⟩ := Option.isSome_iff_exists.mp hsome
  refine ⟨s, s', hs, hs', lends_run _ _ 2 _ _ _ s s' hs hs' _ (by simp [hborrows]) ?_⟩
  simp [meanwhileCalls]

/-! ### Page requests -/

/-- What `check_write_page` or `check_read_page` returns, if it returns. -/
def requestPage (B : Build) (order : HashOrder) (s : LockedSession) (kind : GuardKind)
    (pageId : PageId) : Option (Option Guard × BufferPoolManager) :=
  if s.Proceeds B (.checkPage kind pageId) then
    (s.session.pool.requestPage B order kind pageId).toOption
  else none

/-- A request for the page either succeeds or fails cleanly. -/
structure CleanRequest (B : Build) (order : HashOrder) (s : LockedSession) (kind : GuardKind)
    (p : PageId) : Prop where
  grants : s.session.Grantable B order p →
    ∃ g pool, s.requestPage B order kind p = some (some g, pool)
  refuses : ¬s.session.Grantable B order p → ∃ pool,
    s.requestPage B order kind p = some (none, pool) ∧
      pool.pageTable = s.session.pool.pageTable ∧
      pool.freeFrames = s.session.pool.freeFrames ∧
      (∀ f, (pool.frames f).data = (s.session.pool.frames f).data ∧
        (pool.frames f).pinCount = (s.session.pool.frames f).pinCount) ∧
      pool.arcReplacer = s.session.pool.arcReplacer

/-- The request finds what it unwraps, and the lock it takes free. -/
structure Granted (B : Build) (order : HashOrder) (s : LockedSession) (p : PageId) : Prop where
  grantable : s.session.Grantable B order p
  victim : s.session.pool.pageTable.lookup p = none → s.session.pool.freeFrames = [] →
    s.session.TracksVictim
  records : ∀ f r, s.session.pool.recording B p = some (f, r) → r.Recordable B f p
  unlocked : ∀ f, s.session.pool.filled B p = some f → ∀ b ∈ s.borrows, b.guard.frameId ≠ f

section Requests

variable {B : Build} {order : HashOrder} {n : ℕ} {s : LockedSession} {p : PageId}

theorem proceeds_checkPage_iff (kind : GuardKind) : s.Proceeds B (.checkPage kind p) ↔
    ∀ f, s.session.pool.filled B p = some f → ∀ b ∈ s.borrows, b.guard.frameId ≠ f := by
  simp [Proceeds, Admits, BufferPoolManager.locks]

theorem requestPage_eq_some {kind : GuardKind} {o : Option Guard} {pool : BufferPoolManager} :
    s.requestPage B order kind p = some (o, pool) ↔ s.Proceeds B (.checkPage kind p) ∧
      ∃ g, o = some g ∧ s.session.pool.checkPage B order kind p = .ok (g, pool) := by
  have hpool : s.session.pool.requestPage B order kind p = .ok (o, pool) ↔
      ∃ g, o = some g ∧ s.session.pool.checkPage B order kind p = .ok (g, pool) := by
    rw [BufferPoolManager.requestPage, bind_eq_ok]
    constructor
    · rintro ⟨⟨g, pool'⟩, hcheck, hret⟩
      obtain ⟨rfl, rfl⟩ := Prod.mk.inj (Except.ok.inj hret)
      exact ⟨g, rfl, hcheck⟩
    · rintro ⟨g, rfl, hcheck⟩
      exact ⟨(g, pool), hcheck, rfl⟩
  rw [requestPage, ← hpool]
  split
  · next h => simp [h, ArcReplacer.toOption_eq_some]
  · next h => simp [h]

/-- What a request is granted on does not depend on the kind of the guard. -/
theorem cleanRequest_iff_granted (h : s.session.pool.Partition n)
    (hcounts : s.session.pool.arcReplacer.CountsMarks B) (kind : GuardKind) :
    s.CleanRequest B order kind p ↔ s.Granted B order p := by
  have hok : (∃ g pool, s.session.pool.checkPage B order kind p = .ok (g, pool)) ↔ _ :=
    BufferPoolManager.checkPage_ok_iff h hcounts
  constructor
  · intro hclean
    have hgrantable : s.session.Grantable B order p := by
      by_contra hno
      obtain ⟨pool, hreq, -⟩ := hclean.refuses hno
      obtain ⟨-, g, hnone, -⟩ := requestPage_eq_some.mp hreq
      exact absurd hnone.symm (Option.some_ne_none g)
    obtain ⟨g, pool, hreq⟩ := hclean.grants hgrantable
    obtain ⟨hproceeds, g', -, hcheck⟩ := requestPage_eq_some.mp hreq
    obtain ⟨hload, hrecords⟩ := hok.mp ⟨g', pool, hcheck⟩
    exact ⟨hgrantable, fun hp => (hload hp).2, hrecords,
      (proceeds_checkPage_iff kind).mp hproceeds⟩
  · intro hgranted
    refine ⟨fun hgrantable => ?_, fun hno => absurd hgranted.grantable hno⟩
    have hread : s.session.pool.pageTable.lookup p = none →
        (s.session.pool.readDisk B order).Reads p := by
      intro hp
      rcases hgrantable with hres | ⟨-, hread⟩
      · simp [hp] at hres
      · exact hread
    obtain ⟨g, pool, hcheck⟩ :=
      hok.mpr ⟨fun hp => ⟨hread hp, hgranted.victim hp⟩, hgranted.records⟩
    exact ⟨g, pool, requestPage_eq_some.mpr
      ⟨(proceeds_checkPage_iff kind).mpr hgranted.unlocked, g, rfl, hcheck⟩⟩

end Requests

/-- **A page request succeeds or fails cleanly** in a state of a run exactly
if it is granted there; the replacer tracks a victim wherever a frame has no
guard, in the runs no delete of which unmaps a page. -/
theorem cleanRequest_iff (B : Build) (order : HashOrder) (n : ℕ) (dm : DiskManager)
    (calls : List LockCall) (s : LockedSession)
    (hrun : run (step B order) calls (.new n dm) = some s) (kind : GuardKind) (p : PageId) :
    (s.CleanRequest B order kind p ↔ s.Granted B order p) ∧
      (Along (step B order) UnmapsNothing [] calls (.new n dm) →
        s.session.pool.freeFrames = [] → (∃ f < n, s.session.liveOn f = 0) →
          s.session.TracksVictim) := by
  obtain ⟨poolCalls, hpool, halong⟩ := run_session (new_locksHold n dm) hrun
  obtain ⟨hpart, hcounts⟩ := Session.run_partition_countsMarks hpool
  refine ⟨cleanRequest_iff_granted hpart hcounts kind, fun hcalls hfree ⟨f, hlt, hlive⟩ => ?_⟩
  exact Session.run_tracksVictim hpool (halong [] [] hcalls) hfree hlt hlive

/-- Page 1 is lent when page 2 is asked for, and page 0 has to go. -/
def requestCalls : List LockCall :=
  [.pool .newPage, .pool .newPage, .pool .newPage, .pool (.checkPage .read 0),
    .pool (.dropGuard ⟨.read, 0, 1⟩), .pool (.checkPage .write 1), .borrow ⟨.write, 1, 0⟩ .write,
    .store ⟨⟨.write, 1, 0⟩, .write⟩ (.ofFn pageSize fun _ => 1)]

theorem cleanRequest_iff_two_frames :
    ∃ s, run (step ⟨true⟩ .listed) requestCalls (.new 2 (.fresh DiskManager.blankFile)) =
        some s ∧
      (s.CleanRequest ⟨true⟩ .listed .read 2 ↔ s.Granted ⟨true⟩ .listed 2) := by
  obtain ⟨s, hs⟩ := Option.isSome_iff_exists.mp (by decide +kernel :
    (run (step ⟨true⟩ .listed) requestCalls
      (.new 2 (.fresh DiskManager.blankFile))).isSome = true)
  exact ⟨s, hs, (cleanRequest_iff _ _ 2 _ _ s hs .read 2).1⟩

/-- A request that does not return is not clean. -/
theorem not_cleanRequest {B : Build} {order : HashOrder} {s : LockedSession} {kind : GuardKind}
    {p : PageId} (h : s.requestPage B order kind p = none) : ¬s.CleanRequest B order kind p := by
  intro hclean
  by_cases hgrantable : s.session.Grantable B order p
  · obtain ⟨g, pool, hok⟩ := hclean.grants hgrantable
    simp [h] at hok
  · obtain ⟨pool, hok, -⟩ := hclean.refuses hgrantable
    simp [h] at hok

/-- With one frame, page 0 is held and page 1 is asked for. -/
def heldCalls : List LockCall := [.pool .newPage, .pool .newPage, .pool (.checkPage .read 0)]

/-- The request panics on the victim it does not find. -/
theorem heldCalls_panic :
    ∃ s, run (step ⟨true⟩ .listed) heldCalls (.new 1 (.fresh DiskManager.blankFile)) = some s ∧
      s.session.pool.requestPage ⟨true⟩ .listed .read 1 = .error .unwrap ∧
      ¬s.CleanRequest ⟨true⟩ .listed .read 1 := by
  have hrun : (run (step ⟨true⟩ .listed) heldCalls (.new 1 (.fresh DiskManager.blankFile))).map
      (fun s => errorOf (s.session.pool.requestPage ⟨true⟩ .listed .read 1)) =
      some (some .unwrap) := by
    decide +kernel
  obtain ⟨s, hs, herr⟩ := Option.map_eq_some_iff.mp hrun
  rw [errorOf_eq_some] at herr
  refine ⟨s, hs, herr, not_cleanRequest ?_⟩
  rw [requestPage, herr]
  exact ite_self none

/-- Two frames; page 0 is pinned again, its bytes are lent for writing, and
page 1 is used after it. -/
def lentCalls : List LockCall :=
  [.pool .newPage, .pool .newPage, .pool .newPage, .pool (.checkPage .read 0),
    .pool (.dropGuard ⟨.read, 0, 1⟩), .pool (.checkPage .read 1),
    .pool (.dropGuard ⟨.read, 1, 0⟩), .pool (.checkPage .write 0), .borrow ⟨.write, 0, 1⟩ .write,
    .pool (.checkPage .read 1), .pool (.dropGuard ⟨.read, 1, 0⟩)]

/-- The victim is the frame that is lent, although the other has no guard: but
for the lock the request would return. -/
theorem lentCalls_wait :
    ∃ s, run (step ⟨true⟩ .listed) lentCalls (.new 2 (.fresh DiskManager.blankFile)) = some s ∧
      s.session.liveOn 0 = 0 ∧
      (s.session.pool.requestPage ⟨true⟩ .listed .read 2).isOk = true ∧
      ¬s.CleanRequest ⟨true⟩ .listed .read 2 := by
  have hrun : (run (step ⟨true⟩ .listed) lentCalls (.new 2 (.fresh DiskManager.blankFile))).map
      (fun s => (s.session.liveOn 0, (s.session.pool.requestPage ⟨true⟩ .listed .read 2).isOk,
        (s.requestPage ⟨true⟩ .listed .read 2).isNone)) = some (0, true, true) := by
    decide +kernel
  obtain ⟨s, hs, hresult⟩ := Option.map_eq_some_iff.mp hrun
  obtain ⟨hlive, hok, hnone⟩ : s.session.liveOn 0 = 0 ∧
      (s.session.pool.requestPage ⟨true⟩ .listed .read 2).isOk = true ∧
        s.requestPage ⟨true⟩ .listed .read 2 = none := by
    simpa using hresult
  exact ⟨s, hs, hlive, hok, not_cleanRequest hnone⟩

end LockedSession

end StorageEngine
