import StorageEngine.Lib.Handler
import StorageEngine.Disk.Client
import StorageEngine.Pool.HashOrder

/-!
The buffer pool as a client of the scheduler.

Here the pool does not have the disk: a request is left to whoever serves it,
and the pool goes on with the reply. With the requests served at once, each
function does what it does with the disk in its hand (`Carries`). A pool whose
pages were all created asks for those pages only, and reads none that is not
on disk.
-/

namespace StorageEngine

open Lib

/-- The pool with a disk put in. -/
def BufferPoolManager.onDisk (bpm : BufferPoolManager) (dm : DiskManager) : BufferPoolManager :=
  { bpm with diskManager := dm }

namespace PoolClient

section Programs

variable {E : Type} (fault : Panic → E)

/-- A computation without the disk, whose panic ends the client. -/
def attempt {α : Type} (x : Except Panic α) : DiskProg E α := .lift (x.mapError fault)

/-- `disk_scheduler.schedule(..)` and `rx.recv().unwrap()` -/
def request (type : DiskRequestType) (pageId : PageId) (data : Page) :
    DiskProg E (Option Page) :=
  .call (.request { type, pageId, data })

def newPage (bpm : BufferPoolManager) : DiskProg E (PageId × BufferPoolManager) := do
  let pageId := bpm.nextPageId
  let bpm := { bpm with nextPageId := pageId + 1 }
  let _ ← request .write pageId (.zero pageSize)
  return (pageId, bpm)

/-- The eviction of `check_write_page` and `check_read_page`. -/
def evictFrame (B : Build) (order : HashOrder) (bpm : BufferPoolManager) :
    DiskProg E BufferPoolManager := do
  let (evicted, arcReplacer) ← attempt fault (bpm.arcReplacer.evict B)
  let frameId ← attempt fault (orPanic .unwrap evicted)
  let header ← attempt fault (bpm.frame frameId)
  let toRemove := (order.entries bpm.pageTable).find? fun e => e.2 = frameId
  let (oldPageId, _) ← attempt fault (orPanic .unwrap toRemove)
  let bpm := { bpm with
    arcReplacer
    freeFrames := frameId :: bpm.freeFrames
    pageTable := bpm.pageTable.erase oldPageId }
  let _ ← request .write oldPageId header.data
  return bpm.setFrame frameId header.reset

/-- The read of `check_write_page` and `check_read_page`. -/
def loadPage (B : Build) (bpm : BufferPoolManager) (kind : GuardKind) (pageId : PageId) :
    DiskProg E (Guard × BufferPoolManager) :=
  match bpm.freeFrames with
  | [] => .fail (fault .unwrap)
  | frameId :: freeFrames => do
      let bpm := { bpm with freeFrames }
      let reply ← request .read pageId (.zero pageSize)
      let header ← attempt fault (bpm.frame frameId)
      let data ← attempt fault (orPanic .unwrap reply)
      let bpm := bpm.setFrame frameId { header with data }
      let bpm := { bpm with pageTable := bpm.pageTable.insert pageId frameId }
      attempt fault (bpm.newGuard B kind pageId frameId)

/-- `check_write_page` and `check_read_page` -/
def checkPage (B : Build) (order : HashOrder) (bpm : BufferPoolManager) (kind : GuardKind)
    (pageId : PageId) : DiskProg E (Guard × BufferPoolManager) :=
  match bpm.pageTable.lookup pageId with
  | some frameId => do
      let _ ← attempt fault (bpm.frame frameId)
      attempt fault (bpm.newGuard B kind pageId frameId)
  | none =>
      if 0 < bpm.freeFrames.length then loadPage fault B bpm kind pageId
      else do
        let bpm ← evictFrame fault B order bpm
        loadPage fault B bpm kind pageId

end Programs

section Carries

variable {E α β γ δ : Type} {fault : Panic → E}

/-! ### Requests served at once -/

/-- On the disk alone, the client comes to what the function with the disk in
its hand comes to. -/
def Carries (fault : Panic → E) (join : α → DiskManager → γ) (p : DiskProg E α)
    (x : DiskManager → Except Panic γ) : Prop :=
  ∀ dm, (x dm).mapError fault = (p.run (DiskManager.answer fault) dm).map fun r => join r.1 r.2

variable {join : α → DiskManager → γ} {join' : β → DiskManager → δ} {p : DiskProg E α}
  {x : DiskManager → Except Panic γ}

theorem Carries.of_ok (hp : Carries fault join p x) {dm : DiskManager} {r : α × DiskManager}
    (hrun : p.run (DiskManager.answer fault) dm = .ok r) : x dm = .ok (join r.1 r.2) := by
  have hx := hp dm
  rw [hrun] at hx
  cases hxdm : x dm with
  | error e => simp [hxdm, Except.mapError, Except.map] at hx
  | ok c =>
      rw [hxdm] at hx
      exact congrArg Except.ok (Except.ok.inj hx)

theorem Carries.of_error (hp : Carries fault join p x) {dm : DiskManager} {e : E}
    (hrun : p.run (DiskManager.answer fault) dm = .error e) :
    ∃ e', x dm = .error e' ∧ fault e' = e := by
  have hx := hp dm
  rw [hrun] at hx
  cases hxdm : x dm with
  | error e' =>
      rw [hxdm] at hx
      exact ⟨e', rfl, Except.error.inj hx⟩
  | ok c => simp [hxdm, Except.mapError, Except.map] at hx

theorem Carries.bind {f : α → DiskProg E β} {g : γ → Except Panic δ} (hp : Carries fault join p x)
    (hf : ∀ a, Carries fault join' (f a) fun dm => g (join a dm)) :
    Carries fault join' (p >>= f) fun dm => x dm >>= g := by
  intro dm
  show (x dm >>= g).mapError fault = _
  cases hrun : p.run (DiskManager.answer fault) dm with
  | error e =>
      obtain ⟨e', hx, rfl⟩ := hp.of_error hrun
      rw [hx, Prog.run_bind_error hrun]
      rfl
  | ok r =>
      rw [hp.of_ok hrun, Prog.run_bind_ok hrun]
      exact hf r.1 r.2

theorem carries_pure {a : α} : Carries fault join (pure a) fun dm => .ok (join a dm) :=
  fun _ => rfl

theorem carries_attempt {y : Except Panic α} :
    Carries fault join (attempt fault y) fun dm => y.map fun a => join a dm := by
  intro dm
  cases y with
  | error e => rfl
  | ok a => rfl

theorem carries_attempt_bind {y : Except Panic α} {f : α → DiskProg E β}
    {g : DiskManager → α → Except Panic δ} (hf : ∀ a, Carries fault join' (f a) fun dm => g dm a) :
    Carries fault join' (attempt fault y >>= f) fun dm => y >>= g dm := by
  intro dm
  cases y with
  | error e => rfl
  | ok a => exact hf a dm

theorem carries_request_bind (bpm : BufferPoolManager) {type : DiskRequestType}
    {pageId : PageId} {data : Page} {f : Option Page → DiskProg E β}
    {g : Option Page × BufferPoolManager → Except Panic δ}
    (hf : ∀ reply, Carries fault join' (f reply) fun dm => g (reply, bpm.onDisk dm)) :
    Carries fault join' (request type pageId data >>= f)
      fun dm => (bpm.onDisk dm).request type pageId data >>= g := by
  intro dm
  show ((bpm.onDisk dm).request type pageId data >>= g).mapError fault = _
  cases hserve : dm.serve ⟨type, pageId, data⟩ with
  | error e =>
      have hrequest : (bpm.onDisk dm).request type pageId data = .error e := by
        simp only [BufferPoolManager.request, BufferPoolManager.onDisk, hserve]
        rfl
      rw [request, hrequest, Prog.run_call_bind_error (congrArg (Except.mapError fault) hserve)]
      rfl
  | ok r =>
      have hrequest : (bpm.onDisk dm).request type pageId data = .ok (r.1, bpm.onDisk r.2) := by
        simp only [BufferPoolManager.request, BufferPoolManager.onDisk, hserve]
        rfl
      rw [request, hrequest, Prog.run_call_bind_ok (congrArg (Except.mapError fault) hserve)]
      exact hf r.1 r.2

/-! ### The functions of the pool -/

variable {B : Build} {order : HashOrder} {bpm : BufferPoolManager} {kind : GuardKind}
  {pageId : PageId}

/-- A result and the pool, with the disk put in. -/
def withDisk (r : α × BufferPoolManager) (dm : DiskManager) : α × BufferPoolManager :=
  (r.1, r.2.onDisk dm)

theorem newPage_carries :
    Carries fault withDisk (newPage bpm) fun dm => (bpm.onDisk dm).newPage := by
  show Carries fault withDisk (newPage bpm) fun dm =>
    (BufferPoolManager.onDisk { bpm with nextPageId := bpm.nextPageId + 1 } dm).request .write
      bpm.nextPageId (.zero pageSize) >>= fun r => .ok (bpm.nextPageId, r.2)
  apply carries_request_bind { bpm with nextPageId := bpm.nextPageId + 1 }
  intro reply
  exact carries_pure

theorem newGuard_carries {frameId : FrameId} :
    Carries fault withDisk (attempt fault (bpm.newGuard B kind pageId frameId))
      fun dm => (bpm.onDisk dm).newGuard B kind pageId frameId := by
  intro dm
  rw [← carries_attempt]
  apply congrArg (Except.mapError fault)
  show bpm.arcReplacer.recordAccess B frameId pageId >>= _ =
    (bpm.arcReplacer.recordAccess B frameId pageId >>= _).map _
  cases bpm.arcReplacer.recordAccess B frameId pageId with
  | error e => rfl
  | ok arcReplacer => rfl

theorem dropGuard_carries {guard : Guard} :
    Carries fault BufferPoolManager.onDisk (attempt fault (bpm.dropGuard B guard))
      fun dm => (bpm.onDisk dm).dropGuard B guard := by
  intro dm
  rw [← carries_attempt]
  apply congrArg (Except.mapError fault)
  have hframes : (bpm.onDisk dm).frames = bpm.frames := rfl
  simp only [BufferPoolManager.dropGuard, hframes]
  by_cases hpin : (bpm.frames guard.frameId).pinCount - 1 = 0
  · simp only [hpin, if_true]
    show bpm.arcReplacer.setEvictable B guard.frameId >>= _ =
      (bpm.arcReplacer.setEvictable B guard.frameId >>= _).map _
    cases bpm.arcReplacer.setEvictable B guard.frameId with
    | error e => rfl
    | ok arcReplacer => rfl
  · simp only [hpin, if_false]
    rfl

theorem evictFrame_carries : Carries fault BufferPoolManager.onDisk (evictFrame fault B order bpm)
    fun dm => (bpm.onDisk dm).evictFrame B order := by
  apply carries_attempt_bind
  rintro ⟨evicted, arcReplacer⟩
  apply carries_attempt_bind
  intro frameId
  apply carries_attempt_bind
  intro header
  apply carries_attempt_bind
  rintro ⟨oldPageId, -⟩
  apply carries_request_bind { bpm with
    arcReplacer
    freeFrames := frameId :: bpm.freeFrames
    pageTable := bpm.pageTable.erase oldPageId }
  intro reply
  exact carries_pure

theorem loadPage_carries : Carries fault withDisk (loadPage fault B bpm kind pageId)
    fun dm => (bpm.onDisk dm).loadPage B kind pageId := by
  rw [loadPage]
  cases hfree : bpm.freeFrames with
  | nil =>
      intro dm
      simp only [BufferPoolManager.loadPage, BufferPoolManager.onDisk, hfree]
      rfl
  | cons frameId freeFrames =>
      simp only [BufferPoolManager.loadPage, BufferPoolManager.onDisk, hfree]
      apply carries_request_bind { bpm with freeFrames }
      intro reply
      apply carries_attempt_bind
      intro header
      apply carries_attempt_bind
      intro data
      exact newGuard_carries

theorem checkPage_carries : Carries fault withDisk (checkPage fault B order bpm kind pageId)
    fun dm => (bpm.onDisk dm).checkPage B order kind pageId := by
  rw [checkPage]
  simp only [BufferPoolManager.checkPage, BufferPoolManager.onDisk]
  cases bpm.pageTable.lookup pageId with
  | some frameId =>
      apply carries_attempt_bind
      intro header
      exact newGuard_carries
  | none =>
      by_cases hfree : 0 < bpm.freeFrames.length
      · simp only [hfree, if_true]
        exact loadPage_carries
      · simp only [hfree, if_false]
        apply evictFrame_carries.bind
        intro bpm₁
        exact loadPage_carries

end Carries

section KeepsTo

variable {E α β : Type} {fault : Panic → E} {mine : PageId → Prop} {dm : DiskManager}
  {B : Build} {order : HashOrder} {bpm : BufferPoolManager} {kind : GuardKind} {pageId : PageId}

/-! ### The requests of the pool -/

theorem along_attempt {y : Except Panic α} :
    (attempt fault y).Along (DiskManager.answer fault) (SharedDisk.KeepsTo mine) dm := by
  cases y with
  | error e => trivial
  | ok a => trivial

theorem along_attempt_bind {y : Except Panic α} {f : α → DiskProg E β}
    (hf : ∀ a, y = .ok a →
      (f a).Along (DiskManager.answer fault) (SharedDisk.KeepsTo mine) dm) :
    (attempt fault y >>= f).Along (DiskManager.answer fault) (SharedDisk.KeepsTo mine) dm := by
  cases y with
  | error e => trivial
  | ok a => exact hf a rfl

theorem along_request_bind {type : DiskRequestType} {data : Page} {f : Option Page → DiskProg E β}
    (hmine : mine pageId) (hread : type = .read → dm.contents pageId ≠ none)
    (hf : ∀ reply dm', (f reply).Along (DiskManager.answer fault) (SharedDisk.KeepsTo mine) dm') :
    (request type pageId data >>= f).Along (DiskManager.answer fault)
      (SharedDisk.KeepsTo mine) dm :=
  ⟨⟨hmine, hread⟩, fun reply dm' _ => hf reply dm'⟩

theorem newPage_along (hmine : mine bpm.nextPageId) :
    (newPage bpm : DiskProg E _).Along (DiskManager.answer fault) (SharedDisk.KeepsTo mine) dm := by
  apply along_request_bind hmine
  · simp
  · exact fun _ _ => trivial

/-- The page written back is a resident one. -/
theorem evictFrame_along (hknown : ∀ q f, bpm.pageTable.lookup q = some f → mine q) :
    (evictFrame fault B order bpm).Along (DiskManager.answer fault)
      (SharedDisk.KeepsTo mine) dm := by
  apply along_attempt_bind
  rintro ⟨evicted, arcReplacer⟩ -
  apply along_attempt_bind
  intro frameId _
  apply along_attempt_bind
  intro header _
  apply along_attempt_bind
  rintro ⟨oldPageId, f⟩ hfound
  have hresident : bpm.pageTable.lookup oldPageId = some f :=
    HashOrder.mem_entries.mp (List.mem_of_find?_eq_some (orPanic_eq_ok.mp hfound))
  apply along_request_bind (hknown oldPageId f hresident)
  · simp
  · exact fun _ _ => trivial

theorem loadPage_along (hmine : mine pageId) (hread : dm.contents pageId ≠ none) :
    (loadPage fault B bpm kind pageId).Along (DiskManager.answer fault)
      (SharedDisk.KeepsTo mine) dm := by
  rw [loadPage]
  split
  · trivial
  · apply along_request_bind hmine
    · exact fun _ => hread
    · intro reply dm'
      apply along_attempt_bind
      intro header _
      apply along_attempt_bind
      intro data _
      exact along_attempt

/-- A page that was created is asked for by requests for such pages, and is on
disk when it is read. -/
theorem checkPage_along {n : ℕ} {σ : PageId → Page} {L : PageId → Prop}
    (h : (bpm.onDisk dm).Coherent n σ L) (hpage : L pageId)
    (hknown : ∀ q f, bpm.pageTable.lookup q = some f → L q) (hmine : ∀ q, L q → mine q) :
    (checkPage fault B order bpm kind pageId).Along (DiskManager.answer fault)
      (SharedDisk.KeepsTo mine) dm := by
  rw [checkPage]
  cases hlookup : bpm.pageTable.lookup pageId with
  | some frameId =>
      apply along_attempt_bind
      intro header _
      exact along_attempt
  | none =>
      by_cases hfree : 0 < bpm.freeFrames.length
      · simp only [hfree, if_true]
        apply loadPage_along (hmine pageId hpage)
        simp [show dm.contents pageId = _ from h.onDisk pageId hpage hlookup]
      · simp only [hfree, if_false]
        apply Prog.along_bind
        · exact evictFrame_along fun q f hq => hmine q (hknown q f hq)
        · intro bpm₁ dm₁ hrun
          -- the eviction leaves the page where it was
          have hevict : (bpm.onDisk dm).evictFrame B order = .ok (bpm₁.onDisk dm₁) :=
            evictFrame_carries.of_ok hrun
          apply loadPage_along (hmine pageId hpage)
          have hload := (h.evictFrame hevict).onDisk pageId hpage
            (BufferPoolManager.evictFrame_lookup hevict hlookup)
          simp [show dm₁.contents pageId = _ from hload]

end KeepsTo

end PoolClient

end StorageEngine
