import StorageEngine.Disk.Scheduler
import StorageEngine.Pool.ArcReplacer

/-!
The buffer pool manager (`buffer_pool.rs`) with its frames
(`frame_header.rs`) and page guards (`guard.rs`).

Every call takes the pool's latch for its whole length, so the calls of a
run follow one another. A lock that is poisoned or waited for forever belongs
to a call that does not complete. Which calls wait for the lock around the
bytes of a frame is said in `Pool.Locks`, over these definitions.
-/

namespace StorageEngine

/-- A frame, without the lock around its bytes. The `AtomicUsize` pin count
wraps at 2^64, which as many guards cannot reach; it is kept as a signed
number, so that a count that wrapped below zero is a negative one. -/
structure FrameHeader where
  pinCount : ℤ
  isDirty : Bool
  data : Page

def FrameHeader.new : FrameHeader where
  pinCount := 0
  isDirty := false
  data := .zero pageSize

def FrameHeader.reset (_ : FrameHeader) : FrameHeader where
  pinCount := 0
  isDirty := false
  data := .zero pageSize

inductive GuardKind
  | read
  | write
  deriving DecidableEq, Repr

/-- A `ReadPageGuard` or a `WritePageGuard` that has not been dropped. -/
structure Guard where
  kind : GuardKind
  pageId : PageId
  frameId : FrameId
  deriving DecidableEq

/-- The order in which iterating over the page table visits its entries: any
order of the entries the table has. -/
structure HashOrder where
  entries : HashMap PageId FrameId → List (PageId × FrameId)
  perm : ∀ m, (entries m).Perm (m.entries.map fun e => (e.1, e.2))

/-- The order in which the model keeps the entries. -/
def HashOrder.listed : HashOrder where
  entries m := m.entries.map fun e => (e.1, e.2)
  perm _ := List.Perm.refl _

/-- The pool. The vector `frames` has `num_frames` entries, and
`free_frames` is kept with its end first. -/
structure BufferPoolManager where
  numFrames : ℕ
  nextPageId : PageId
  arcReplacer : ArcReplacer
  diskManager : DiskManager
  frames : FrameId → FrameHeader
  freeFrames : List FrameId
  pageTable : HashMap PageId FrameId

namespace BufferPoolManager

def new (numFrames : ℕ) (diskManager : DiskManager) : BufferPoolManager where
  numFrames
  nextPageId := 0
  arcReplacer := .new numFrames
  diskManager
  frames := fun _ => .new
  freeFrames := (List.range numFrames).reverse
  pageTable := ∅

/-- `self.frames[frame_id]` -/
def frame (bpm : BufferPoolManager) (frameId : FrameId) : Except Panic FrameHeader :=
  if frameId < bpm.numFrames then .ok (bpm.frames frameId) else .error .index

def setFrame (bpm : BufferPoolManager) (frameId : FrameId) (header : FrameHeader) :
    BufferPoolManager :=
  { bpm with frames := Function.update bpm.frames frameId header }

/-- `disk_scheduler.schedule(..)` and `rx.recv().unwrap()` -/
def request (bpm : BufferPoolManager) (type : DiskRequestType) (pageId : PageId)
    (data : Page) : Except Panic (Option Page × BufferPoolManager) := do
  let (reply, diskManager) ← bpm.diskManager.serve { type, pageId, data }
  return (reply, { bpm with diskManager })

/-! ### Guards -/

/-- `WritePageGuard::new` and `ReadPageGuard::new` -/
def newGuard (B : Build) (bpm : BufferPoolManager) (kind : GuardKind) (pageId : PageId)
    (frameId : FrameId) : Except Panic (Guard × BufferPoolManager) := do
  let header := bpm.frames frameId
  let bpm := bpm.setFrame frameId { header with pinCount := header.pinCount + 1 }
  let arcReplacer ← bpm.arcReplacer.recordAccess B frameId pageId
  return ({ kind, pageId, frameId }, { bpm with arcReplacer })

/-- `Drop` for either guard. -/
def dropGuard (B : Build) (bpm : BufferPoolManager) (guard : Guard) :
    Except Panic BufferPoolManager := do
  let header := bpm.frames guard.frameId
  let pinCount := header.pinCount - 1
  let bpm := bpm.setFrame guard.frameId { header with pinCount }
  if pinCount = 0 then
    let arcReplacer ← bpm.arcReplacer.setEvictable B guard.frameId
    return { bpm with arcReplacer }
  else return bpm

/-- `data()` of either guard, and the bytes `data_mut()` shows. -/
def data (bpm : BufferPoolManager) (guard : Guard) : Page := (bpm.frames guard.frameId).data

/-- `data_mut()` marks the frame dirty. -/
def dataMut (bpm : BufferPoolManager) (guard : Guard) : BufferPoolManager :=
  bpm.setFrame guard.frameId { bpm.frames guard.frameId with isDirty := true }

/-- The bytes written through the lock `data_mut()` returned. -/
def store (bpm : BufferPoolManager) (guard : Guard) (data : Page) : BufferPoolManager :=
  bpm.setFrame guard.frameId { bpm.frames guard.frameId with data }

/-- `flush()` of either guard. The reply of the disk is not looked at. -/
def flushGuard (bpm : BufferPoolManager) (guard : Guard) :
    Except Panic (Bool × BufferPoolManager) := do
  let header := bpm.frames guard.frameId
  if !header.isDirty then return (false, bpm)
  else
    let (_, bpm) ← bpm.request .write guard.pageId header.data
    return (true, bpm.setFrame guard.frameId { header with isDirty := false })

/-! ### Pages -/

/-- `new_page`; `fetch_add` wraps. -/
def newPage (bpm : BufferPoolManager) : Except Panic (PageId × BufferPoolManager) := do
  let pageId := bpm.nextPageId
  let bpm := { bpm with nextPageId := pageId + 1 }
  let (_, bpm) ← bpm.request .write pageId (.zero pageSize)
  return (pageId, bpm)

def deletePage (bpm : BufferPoolManager) (pageId : PageId) : Except Panic BufferPoolManager :=
  match bpm.pageTable.lookup pageId with
  | none => .ok bpm
  | some frameId => do
      let header ← bpm.frame frameId
      -- `pin_count > 0` on an unsigned count
      if header.pinCount ≠ 0 then return bpm
      else
        let bpm := { bpm with
          pageTable := bpm.pageTable.erase pageId
          arcReplacer := bpm.arcReplacer.remove frameId }
        let bpm := bpm.setFrame frameId header.reset
        let bpm := { bpm with freeFrames := frameId :: bpm.freeFrames }
        let (_, bpm) ← bpm.request .delete pageId (.zero pageSize)
        return bpm

/-- The block of `check_write_page` and `check_read_page` that evicts the
old page when no frame is free, where nobody holds the lock of the victim's
frame. The reply to the write is not looked at. -/
def evictFrame (B : Build) (order : HashOrder) (bpm : BufferPoolManager) :
    Except Panic BufferPoolManager := do
  let (evicted, arcReplacer) ← bpm.arcReplacer.evict B
  let frameId ← orPanic .unwrap evicted
  let header ← bpm.frame frameId
  let toRemove := (order.entries bpm.pageTable).find? fun e => e.2 = frameId
  let (oldPageId, _) ← orPanic .unwrap toRemove
  let bpm := { bpm with
    arcReplacer
    freeFrames := frameId :: bpm.freeFrames
    pageTable := bpm.pageTable.erase oldPageId }
  let (_, bpm) ← bpm.request .write oldPageId header.data
  return bpm.setFrame frameId header.reset

/-- The rest of both branches: pop a free frame, read the page into it, map
it and pin it. -/
def loadPage (B : Build) (bpm : BufferPoolManager) (kind : GuardKind) (pageId : PageId) :
    Except Panic (Guard × BufferPoolManager) :=
  match bpm.freeFrames with
  | [] => .error .unwrap
  | frameId :: freeFrames => do
      let bpm := { bpm with freeFrames }
      let (reply, bpm) ← bpm.request .read pageId (.zero pageSize)
      let header ← bpm.frame frameId
      let data ← orPanic .unwrap reply
      let bpm := bpm.setFrame frameId { header with data }
      let bpm := { bpm with pageTable := bpm.pageTable.insert pageId frameId }
      bpm.newGuard B kind pageId frameId

/-- `check_write_page` and `check_read_page`, which differ in the guard they
return. -/
def checkPage (B : Build) (order : HashOrder) (bpm : BufferPoolManager) (kind : GuardKind)
    (pageId : PageId) : Except Panic (Guard × BufferPoolManager) :=
  match bpm.pageTable.lookup pageId with
  | some frameId => do
      let _ ← bpm.frame frameId
      bpm.newGuard B kind pageId frameId
  | none =>
      if 0 < bpm.freeFrames.length then bpm.loadPage B kind pageId
      else do
        let bpm ← bpm.evictFrame B order
        bpm.loadPage B kind pageId

def checkWritePage (B : Build) (order : HashOrder) (bpm : BufferPoolManager)
    (pageId : PageId) : Except Panic (Guard × BufferPoolManager) :=
  bpm.checkPage B order .write pageId

def checkReadPage (B : Build) (order : HashOrder) (bpm : BufferPoolManager)
    (pageId : PageId) : Except Panic (Guard × BufferPoolManager) :=
  bpm.checkPage B order .read pageId

/-- A read guard taken, flushed and dropped. -/
def flushFrame (B : Build) (bpm : BufferPoolManager) (pageId : PageId) (frameId : FrameId) :
    Except Panic (Bool × BufferPoolManager) := do
  let _ ← bpm.frame frameId
  let (guard, bpm) ← bpm.newGuard B .read pageId frameId
  let (flushed, bpm) ← bpm.flushGuard guard
  let bpm ← bpm.dropGuard B guard
  return (flushed, bpm)

def flushPage (B : Build) (bpm : BufferPoolManager) (pageId : PageId) :
    Except Panic (Bool × BufferPoolManager) :=
  match bpm.pageTable.lookup pageId with
  | some frameId => bpm.flushFrame B pageId frameId
  | none => .ok (false, bpm)

/-- The loop of `flush_all_pages` over the entries of the page table. -/
def flushEntries (B : Build) (bpm : BufferPoolManager) :
    List (PageId × FrameId) → Except Panic BufferPoolManager
  | [] => .ok bpm
  | (pageId, frameId) :: rest => do
      let (_, bpm) ← bpm.flushFrame B pageId frameId
      bpm.flushEntries B rest

def flushAllPages (B : Build) (order : HashOrder) (bpm : BufferPoolManager) :
    Except Panic (Bool × BufferPoolManager) :=
  if HashMap.len bpm.pageTable = 0 then .ok (false, bpm)
  else do
    let bpm ← bpm.flushEntries B (order.entries bpm.pageTable)
    return (true, bpm)

end BufferPoolManager

end StorageEngine
