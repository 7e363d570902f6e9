import StorageEngine.Disk.Faults
import StorageEngine.Pool.Requests

/-!
Writes that fail.

A flush and an eviction write a page to disk and wait for the reply, but do
not look at it: the frame counts as clean, or is given to another page,
whether or not its bytes have reached the disk. So bytes are lost exactly by
the calls whose write does not land.
-/

namespace StorageEngine

open Lib

/-- The page at `off` after a write to it that stopped after `w` bytes. -/
def DbFile.torn (file : DbFile) (off : ℕ) (pageData : Page) (w : ℕ) : Page :=
  (file.store off (pageData.toList.take w)).pageAt off

namespace DiskManager

/-- `write_page` brings the bytes to disk: seeking and writing succeed, or
what was not written is there already. A failure of the final `flush` is
none of the bytes. -/
def WriteLands (dm : DiskManager) (pageId : PageId) (pageData : Page) : Prop :=
  let (offset, dm') := dm.slotFor pageId
  match dm'.dbFile.fault dm'.dbFile.ops, dm'.dbFile.fault (dm'.dbFile.ops + 1) with
  | none, none => True
  | none, some w => (dm.pages.lookup pageId).isSome ∧ dm'.dbFile.torn offset pageData w = pageData
  | some _, _ => dm.contents pageId = some pageData

section WriteLands

variable {dm dm' : DiskManager} {p : PageId} {o : ℕ}

/-- **When the bytes of a page reach the disk.** -/
theorem contents_writePage_iff (dm : DiskManager) (p : PageId) (data : Page) :
    (dm.writePage p data).2.contents p = some data ↔ dm.WriteLands p data := by
  obtain ⟨o, dm', hslot⟩ : ∃ o dm', dm.slotFor p = (o, dm') := ⟨_, _, rfl⟩
  have hpages : dm'.pages = dm.pages := by
    rw [← slotFor_pages dm p, hslot]
  have hmapped : ∀ o', dm.pages.lookup p = some o' → o' = o ∧ dm' = dm := by
    intro o' ho'
    obtain ⟨rfl, rfl⟩ := Prod.mk.inj (hslot.symm.trans (slotFor_mapped ho'))
    exact ⟨rfl, rfl⟩
  simp only [WriteLands, hslot]
  cases hseek : dm'.dbFile.fault dm'.dbFile.ops with
  | some w =>
      rw [writePage_of_seek_fails hslot hseek]
      cases hlook : dm.pages.lookup p with
      | none => simp [contents, hpages, hlook]
      | some o' =>
          obtain ⟨rfl, rfl⟩ := hmapped o' hlook
          exact Iff.rfl
  | none =>
      cases hwrite : dm'.dbFile.fault (dm'.dbFile.ops + 1) with
      | some w =>
          obtain ⟨dbFile, heq, -, -, hbyte⟩ := writePage_of_write_fails data hslot hseek hwrite
          have hfile := DbFile.pageAt_congr fun i _ => congrFun hbyte (o + i)
          rw [heq, contents]
          simp only [hpages]
          cases hlook : dm.pages.lookup p with
          | none => simp
          | some o' =>
              obtain ⟨rfl, rfl⟩ := hmapped o' hlook
              simp [DbFile.torn, hfile]
      | none =>
          obtain ⟨dbFile, heq, -, -, hbyte⟩ := writePage_of_write_ok data hslot hseek hwrite
          have hfile := DbFile.pageAt_congr fun i _ => congrFun hbyte (o + i)
          rw [heq, contents]
          simp [hfile, DbFile.pageAt_store_self]

/-- The reply to a write does not tell more than the disk. -/
theorem serve_write_contents {data : Page} {reply : Option Page}
    (h : dm.serve ⟨.write, p, data⟩ = .ok (reply, dm')) :
    dm'.contents p = some data ↔ dm.WriteLands p data := by
  rw [← contents_writePage_iff]
  simp only [serve] at h
  split at h
  · next heq =>
      obtain ⟨-, rfl⟩ := Prod.mk.inj (Except.ok.inj h)
      rw [heq]
  · next heq =>
      obtain ⟨-, rfl⟩ := Prod.mk.inj (Except.ok.inj h)
      rw [heq]

end WriteLands

end DiskManager

namespace BufferPoolManager

/-- A flush that says so, or makes the frame clean, leaves the bytes of the
frame on disk. -/
def FlushHonest (bpm bpm' : BufferPoolManager) (pageId : PageId) (frameId : FrameId)
    (flushed : Bool) : Prop :=
  flushed = true ∨ (bpm.frames frameId).isDirty = true ∧ (bpm'.frames frameId).isDirty = false →
    bpm'.diskManager.contents pageId = some (bpm'.frames frameId).data

/-- The flush through a guard of its own, which `flush_page` makes and
`flush_all_pages` for each page, is honest. -/
def FlushesHonestly (B : Build) (bpm : BufferPoolManager) (pageId : PageId)
    (frameId : FrameId) : Prop :=
  ∀ guard bpm₁ flushed bpm₂, bpm.newGuard B .read pageId frameId = .ok (guard, bpm₁) →
    bpm₁.flushGuard guard = .ok (flushed, bpm₂) → bpm₁.FlushHonest bpm₂ pageId frameId flushed

/-- Where the guard is created, the write of its flush lands. -/
def FlushLands (B : Build) (bpm : BufferPoolManager) (pageId : PageId)
    (frameId : FrameId) : Prop :=
  (bpm.frames frameId).isDirty = true →
    (∃ r, bpm.arcReplacer.recordAccess B frameId pageId = .ok r) →
      bpm.diskManager.WriteLands pageId (bpm.frames frameId).data

/-- One turn of the loop of `flush_all_pages`. -/
def flushEntry (B : Build) (e : PageId × FrameId) (bpm : BufferPoolManager) :
    Option BufferPoolManager :=
  (bpm.flushFrame B e.1 e.2).toOption.map Prod.snd

/-- A page taken out of the page table is on disk as it was in its frame. -/
def EvictsSafely (bpm bpm' : BufferPoolManager) : Prop :=
  ∀ p f, bpm.pageTable.lookup p = some f → bpm'.pageTable.lookup p = none →
    bpm'.diskManager.contents p = some (bpm.frames f).data

section WriteBack

variable {B : Build} {order : HashOrder} {n : ℕ} {bpm bpm' : BufferPoolManager}

theorem flushGuard_honest_iff {g : Guard} {flushed : Bool}
    (h : bpm.flushGuard g = .ok (flushed, bpm')) :
    bpm.FlushHonest bpm' g.pageId g.frameId flushed ↔
      ((bpm.frames g.frameId).isDirty = true →
        bpm.diskManager.WriteLands g.pageId (bpm.frames g.frameId).data) := by
  rcases flushGuard_cases h with ⟨hclean, rfl, rfl⟩ | ⟨hdirty, rfl, reply, dm, hserve, rfl⟩
  · simp [FlushHonest, hclean]
  · rw [← DiskManager.serve_write_contents hserve]
    simp [FlushHonest, hdirty]

/-- A flush of a guard always completes. -/
theorem flushGuard_completes (bpm : BufferPoolManager) (g : Guard) :
    ∃ flushed bpm', bpm.flushGuard g = .ok (flushed, bpm') := by
  simp only [flushGuard]
  split
  · exact ⟨_, _, rfl⟩
  · obtain ⟨reply, dm, hserve⟩ :=
      bpm.diskManager.serve_write_ok g.pageId (bpm.frames g.frameId).data
    exact ⟨_, _, bind_eq_ok.mpr ⟨_, request_eq_ok.mpr ⟨dm, hserve, rfl⟩, rfl⟩⟩

/-- The guard pins the frame, and leaves its bytes and the disk alone. -/
theorem flushesHonestly_iff {p : PageId} {f : FrameId} :
    bpm.FlushesHonestly B p f ↔ bpm.FlushLands B p f := by
  have hpinned : ∀ r, (bpm.pinned f r).frames f =
      { bpm.frames f with pinCount := (bpm.frames f).pinCount + 1 } :=
    fun r => Function.update_self f _ bpm.frames
  constructor
  · rintro hhonest hdirty ⟨r, hr⟩
    obtain ⟨flushed, bpm₂, hflush⟩ := flushGuard_completes (bpm.pinned f r) ⟨.read, p, f⟩
    have hlands := (flushGuard_honest_iff hflush).mp
      (hhonest ⟨.read, p, f⟩ _ flushed bpm₂ (newGuard_ok .read hr) hflush)
    rw [hpinned] at hlands
    exact hlands hdirty
  · intro hlands g bpm₁ flushed bpm₂ hguard hflush
    obtain ⟨r, hr, rfl, rfl⟩ := newGuard_eq_ok.mp hguard
    refine (flushGuard_honest_iff hflush).mpr ?_
    rw [hpinned]
    exact fun hdirty => hlands hdirty ⟨r, hr⟩

/-- A flush that completes says what its guard's flush says. -/
theorem flushFrame_honest {p : PageId} {f : FrameId} {flushed : Bool}
    (hlands : bpm.FlushLands B p f) (h : bpm.flushFrame B p f = .ok (flushed, bpm')) :
    bpm.FlushHonest bpm' p f flushed := by
  obtain ⟨-, r, r', dm, hr, -, hdisk, rfl⟩ := flushFrame_cases h
  rcases hdisk with ⟨hclean, rfl, rfl⟩ | ⟨hdirty, rfl, reply, hserve⟩
  · simp [FlushHonest, hclean]
  · have hdm := (DiskManager.serve_write_contents hserve).mpr (hlands hdirty ⟨r, hr⟩)
    simpa [FlushHonest, hdirty, touched] using hdm

theorem evictFrame_safe_iff (hpart : bpm.Partition n) (h : bpm.evictFrame B order = .ok bpm') :
    bpm.EvictsSafely bpm' ↔ ∀ f r p, bpm.arcReplacer.evict B = .ok (some f, r) →
      bpm.pageTable.lookup p = some f → bpm.diskManager.WriteLands p (bpm.frames f).data := by
  obtain ⟨f, p', r, q, reply, dm, hevict, -, -, hq, hserve, rfl⟩ := evictFrame_cases h
  have hlands := DiskManager.serve_write_contents hserve
  constructor
  · intro hsafe f' r' p hevict' hp
    obtain ⟨hf, -⟩ := ok_pair_unique hevict hevict'
    obtain rfl := Option.some.inj hf
    obtain rfl := hpart.injective hp hq
    exact hlands.mp (hsafe p f hp (AList.lookup_erase p bpm.pageTable))
  · intro hland p f' hp hgone
    have hgone : (bpm.pageTable.erase q).lookup p = none := hgone
    rw [HashMap.lookup_erase_eq] at hgone
    split at hgone
    · next heq =>
        subst p
        obtain rfl : f' = f := by simpa [hq] using hp.symm
        exact hlands.mpr (hland f' r q hevict hq)
    · simp [hp] at hgone

end WriteBack

end BufferPoolManager

namespace Session

/-- The call loses no bytes: every flush it makes is honest, and what a check
takes out of the page table to free a frame is on disk. -/
def LosesNothing (B : Build) (order : HashOrder) (s : Session) : PoolCall → Prop
  | .flushGuard g => ∀ flushed pool, s.pool.flushGuard g = .ok (flushed, pool) →
      s.pool.FlushHonest pool g.pageId g.frameId flushed
  | .flushPage p => ∀ f, s.pool.pageTable.lookup p = some f →
      s.pool.FlushesHonestly B p f ∧ ∀ flushed pool,
        s.pool.flushPage B p = .ok (flushed, pool) → s.pool.FlushHonest pool p f flushed
  | .flushAllPages =>
      Before (BufferPoolManager.flushEntry B) (fun _ e pool => pool.FlushesHonestly B e.1 e.2)
        [] (order.entries s.pool.pageTable) s.pool
  | .checkPage _ p => s.pool.pageTable.lookup p = none → s.pool.freeFrames = [] →
      ∀ pool, s.pool.evictFrame B order = .ok pool → s.pool.EvictsSafely pool
  | _ => True

/-- The writes the call is about to make land: those of dirty frames that are
flushed, each on the disk the flushes before it leave, or that of the victim
of an eviction. -/
def WriteLands (B : Build) (order : HashOrder) (s : Session) : PoolCall → Prop
  | .flushGuard g => (s.pool.frames g.frameId).isDirty = true →
      s.pool.diskManager.WriteLands g.pageId (s.pool.frames g.frameId).data
  | .flushPage p => ∀ f, s.pool.pageTable.lookup p = some f → s.pool.FlushLands B p f
  | .flushAllPages =>
      Before (BufferPoolManager.flushEntry B) (fun _ e pool => pool.FlushLands B e.1 e.2)
        [] (order.entries s.pool.pageTable) s.pool
  | .checkPage _ p => s.pool.pageTable.lookup p = none → s.pool.freeFrames = [] →
      ∀ f r q, s.pool.arcReplacer.evict B = .ok (some f, r) →
        s.pool.pageTable.lookup q = some f →
          s.pool.diskManager.WriteLands q (s.pool.frames f).data
  | _ => True

section WriteBack

variable {B : Build} {order : HashOrder} {n : ℕ} {s : Session}

theorem losesNothing_iff (h : s.pool.Partition n) (call : PoolCall) :
    s.LosesNothing B order call ↔ s.WriteLands B order call := by
  cases call with
  | flushGuard g =>
      obtain ⟨flushed, pool, hflush⟩ := s.pool.flushGuard_completes g
      have hiff := BufferPoolManager.flushGuard_honest_iff hflush
      constructor
      · exact fun hhonest => hiff.mp (hhonest flushed pool hflush)
      · intro hlands flushed' pool' hflush'
        obtain ⟨rfl, rfl⟩ := ok_pair_unique hflush hflush'
        exact hiff.mpr hlands
  | flushPage p =>
      constructor
      · exact fun hhonest f hp => BufferPoolManager.flushesHonestly_iff.mp (hhonest f hp).1
      · intro hlands f hp
        refine ⟨BufferPoolManager.flushesHonestly_iff.mpr (hlands f hp), ?_⟩
        intro flushed pool hflush
        apply BufferPoolManager.flushFrame_honest (hlands f hp)
        simpa only [BufferPoolManager.flushPage, hp] using hflush
  | flushAllPages =>
      exact before_congr (J := fun _ => True) (fun _ _ _ _ _ => trivial)
        (fun _ _ _ _ => BufferPoolManager.flushesHonestly_iff) trivial
  | checkPage kind p =>
      constructor
      · intro hsafe hp hfree f r q hevict
        obtain ⟨q', reply, dm, -, -, -, hok⟩ :=
          BufferPoolManager.evictFrame_eq_ok h hfree hevict order
        exact (BufferPoolManager.evictFrame_safe_iff h hok).mp (hsafe hp hfree _ hok) f r q hevict
      · intro hlands hp hfree pool hok
        exact (BufferPoolManager.evictFrame_safe_iff h hok).mpr (hlands hp hfree)
  | newPage => exact Iff.rfl
  | write g data => exact Iff.rfl
  | dropGuard g => exact Iff.rfl
  | deletePage p => exact Iff.rfl

end WriteBack

/-- **No bytes are lost** in a run, whatever the disk does, exactly if every
write its flushes and evictions make lands. -/
theorem losesNothing_iff_writeLands (B : Build) (order : HashOrder) (n : ℕ) (dm : DiskManager)
    (calls : List PoolCall) :
    Before (step B order) (fun _ call s => s.LosesNothing B order call) [] calls (.new n dm) ↔
      Before (step B order) (fun _ call s => s.WriteLands B order call) [] calls (.new n dm) := by
  refine before_congr (J := fun s => s.pool.Partition n) ?_ ?_
    (BufferPoolManager.new_partition n dm)
  · exact fun call s s' h hstep => step_partition h hstep
  · exact fun hist call s h => losesNothing_iff h call

/-- A file whose seek number 8 fails. -/
def failingFile : DbFile :=
  { DiskManager.blankFile with fault := fun k => if k = 8 then some 0 else none }

/-- A page of ones is written through a guard, which is then flushed. -/
def lostFlush : List PoolCall :=
  [.newPage, .checkPage .write 0, .write ⟨.write, 0, 0⟩ (.ofFn pageSize fun _ => 1)] ++
    [.flushGuard ⟨.write, 0, 0⟩]

/-- The flush cannot seek, returns `true` all the same, and leaves the frame
clean with its bytes nowhere on disk. -/
theorem lostFlush_loses :
    DiskManager.new failingFile = .ok (.fresh failingFile) ∧
      ¬Before (step ⟨true⟩ .listed) (fun _ call s => s.LosesNothing ⟨true⟩ .listed call) []
        lostFlush (.new 1 (.fresh failingFile)) := by
  refine ⟨rfl, fun h => ?_⟩
  have hrun : (run (step ⟨true⟩ .listed)
      [.newPage, .checkPage .write 0, .write ⟨.write, 0, 0⟩ (.ofFn pageSize fun _ => 1)]
      (.new 1 (.fresh failingFile))).map (fun s =>
        (s.pool.flushGuard ⟨.write, 0, 0⟩).toOption.map fun r =>
          (r.1, (r.2.diskManager.contents 0).map fun page => page.toList.head?,
            (r.2.frames 0).data.toList.head?)) =
      some (some (true, some (some 0), some 1)) := by
    decide +kernel
  obtain ⟨s, hs, hflush⟩ := Option.map_eq_some_iff.mp hrun
  obtain ⟨⟨flushed, pool⟩, hok, hbytes⟩ := Option.map_eq_some_iff.mp hflush
  obtain ⟨rfl, hdisk, hframe⟩ : flushed = true ∧
      (pool.diskManager.contents 0).map (fun page => page.toList.head?) = some (some 0) ∧
        (pool.frames 0).data.toList.head? = some 1 := by
    simpa using hbytes
  have hlost := (h.of_run hs).1 true pool (ArcReplacer.toOption_eq_some.mp hok) (Or.inl rfl)
  rw [show pool.diskManager.contents 0 = some (pool.frames 0).data from hlost] at hdisk
  simp [hframe] at hdisk

end Session

end StorageEngine
