import StorageEngine.Disk.Slots

/-!
Runs of `write_page`, `read_page` and `delete_page` calls on a fresh disk
manager, and what a page reads back as after any of them.
-/

namespace StorageEngine

open Lib

/-- A call of the disk manager; a read is given its buffer. -/
inductive DiskCall
  | write (pageId : PageId) (pageData : Page)
  | read (pageId : PageId) (pageData : Page)
  | delete (pageId : PageId)

namespace DiskManager

/-- The state a call leaves behind; a panic leaves none. -/
def call : DiskCall → DiskManager → Option DiskManager
  | .write pageId pageData, dm => some (dm.writePage pageId pageData).2
  | .read pageId pageData, dm =>
      match dm.readPage pageId pageData with
      | .ok (_, dm') => some dm'
      | .error _ => none
  | .delete pageId, dm => some (dm.deletePage pageId).2

/-- The bytes of the last write of a page that no delete of it follows, in a
history kept latest first. -/
def lastWrite : List DiskCall → PageId → Option Page
  | [], _ => none
  | .write q pageData :: hist, p => if p = q then some pageData else lastWrite hist p
  | .read _ _ :: hist, p => lastWrite hist p
  | .delete q :: hist, p => if p = q then none else lastWrite hist p

/-- After the calls `hist`, pages do not alias: slots are separated, and
every page reads back as it was last written. -/
def DoesNotAlias (hist : List DiskCall) (dm : DiskManager) : Prop :=
  dm.Separated ∧ ∀ p page, lastWrite hist p = some page →
    ∀ buf, ∃ dm', dm.readPage p buf = .ok (.ok page, dm')

/-- The call is not a read of an unmapped page that takes a free slot. -/
def TakesNoSlot (_ : List DiskCall) (c : DiskCall) (dm : DiskManager) : Prop :=
  ∀ p buf, c = .read p buf → dm.pages.lookup p ≠ none ∨ dm.freeSlots = []

instance (hist : List DiskCall) : ∀ (c : DiskCall) (dm : DiskManager),
    Decidable (TakesNoSlot hist c dm)
  | .read p buf, dm => decidable_of_iff (dm.pages.lookup p ≠ none ∨ dm.freeSlots = [])
      (by simp [TakesNoSlot])
  | .write p data, dm => isTrue (by simp [TakesNoSlot])
  | .delete p, dm => isTrue (by simp [TakesNoSlot])

/-- The invariant behind `DoesNotAlias`. -/
def Tracks (hist : List DiskCall) (dm : DiskManager) : Prop :=
  dm.Sized ∧ dm.Packed ∧ ∀ p, dm.contents p = lastWrite hist p

theorem Tracks.doesNotAlias {hist : List DiskCall} {dm : DiskManager}
    (h : Tracks hist dm) : DoesNotAlias hist dm := by
  obtain ⟨hs, hp, hc⟩ := h
  refine ⟨hp.toSeparated, fun p page hpage buf => ?_⟩
  obtain ⟨dm', hread, -⟩ := readPage_spec hs hp ((hc p).trans hpage) buf
  exact ⟨dm', hread⟩

/-- The manager `DiskManager::new` builds on a file without faults. -/
def fresh (dbFile : DbFile) : DiskManager where
  dbFile := { dbFile with
    len := (dbIoSize + 1) * pageSize
    byte := fun i => if i < dbFile.len then dbFile.byte i else 0
    ops := dbFile.ops + 1 + 1 }
  pageCapacity := dbIoSize
  pages := ∅
  freeSlots := []

theorem new_eq_fresh {dbFile : DbFile} (hf : dbFile.NoFaults) :
    DiskManager.new dbFile = .ok (fresh dbFile) := by
  have hf' : ({ dbFile with
      len := (dbIoSize + 1) * pageSize
      byte := fun i => if i < dbFile.len then dbFile.byte i else 0
      ops := dbFile.ops + 1 } : DbFile).NoFaults := hf
  have hlen : ¬(dbIoSize + 1) * pageSize < dbIoSize * pageSize := by decide
  rw [DiskManager.new, DbFile.setLen_ok hf]
  simp only [DbFile.metadataLen_ok hf', hlen, if_false]
  rfl

/-- A fresh manager has nothing mapped and no free slot. -/
theorem fresh_tracks {dbFile : DbFile} (hf : dbFile.NoFaults) : Tracks [] (fresh dbFile) := by
  have hlook : ∀ p, (fresh dbFile).pages.lookup p = none := fun p => AList.lookup_empty p
  have huses : ∀ o, ¬(fresh dbFile).UsesOffset o := by
    rintro o (⟨p, hp⟩ | ho)
    · simp [hlook] at hp
    · simp [fresh] at ho
  refine ⟨⟨hf, rfl, ?_, fun o ho => absurd ho (huses o)⟩,
    ⟨⟨?_, ?_, List.nodup_nil⟩, fun o ho => absurd ho (huses o)⟩, ?_⟩
  · show 0 < dbIoSize
    decide
  · intro p q o hp
    simp [hlook] at hp
  · intro p o hp
    simp [hlook] at hp
  · intro p
    simp [contents, lastWrite, hlook]

/-- One call that takes no slot from the free list for a read. -/
theorem call_tracks (hist : List DiskCall) (c : DiskCall) (dm dm' : DiskManager)
    (h : Tracks hist dm) (hc : TakesNoSlot hist c dm) (hcall : call c dm = some dm') :
    Tracks (c :: hist) dm' := by
  obtain ⟨hs, hp, hcont⟩ := h
  cases c with
  | write p data =>
      obtain ⟨dm₁, heq, hs₁, hp₁, hc₁⟩ := writePage_spec hs hp p data
      obtain rfl : dm₁ = dm' := by simpa [call, heq] using hcall
      exact ⟨hs₁, hp₁, fun q => by rw [hc₁, lastWrite, hcont]⟩
  | read p buf =>
      cases hlook : dm.pages.lookup p with
      | none =>
          have hfree := (hc p buf rfl).resolve_left (fun h => h hlook)
          obtain ⟨page, dm₁, heq, hs₁, hp₁, hc₁⟩ := readPage_unmapped hs hp hfree p buf
          obtain rfl : dm₁ = dm' := by simpa [call, heq] using hcall
          exact ⟨hs₁, hp₁, fun q => by rw [hc₁, lastWrite, hcont]⟩
      | some o =>
          obtain ⟨dm₁, heq, hs₁, hp₁, hc₁⟩ :=
            readPage_spec hs hp (contents_eq_some.mpr ⟨o, hlook, rfl⟩) buf
          obtain rfl : dm₁ = dm' := by simpa [call, heq] using hcall
          exact ⟨hs₁, hp₁, fun q => by rw [hc₁, lastWrite, hcont]⟩
  | delete p =>
      obtain ⟨dm₁, heq, hs₁, hp₁, hc₁⟩ := deletePage_spec hs hp p
      obtain rfl : dm₁ = dm' := by simpa [call, heq] using hcall
      exact ⟨hs₁, hp₁, fun q => by rw [hc₁, lastWrite, hcont]⟩

/-- **Pages never alias** in a run none of whose reads of an unmapped page
takes a slot off the free list. -/
theorem doesNotAlias_throughout (dbFile : DbFile) (hf : dbFile.NoFaults) (dm : DiskManager)
    (hnew : DiskManager.new dbFile = .ok dm) (calls : List DiskCall)
    (hcalls : Along call TakesNoSlot [] calls dm) :
    Throughout call DoesNotAlias [] calls dm := by
  obtain rfl : fresh dbFile = dm := by simpa [new_eq_fresh hf] using hnew
  exact (throughout_of_along call_tracks (fresh_tracks hf) hcalls).mono
    fun _ _ h => h.doesNotAlias

/-- A file without faults, as long as `DiskManager::new` makes it. -/
def blankFile : DbFile where
  len := 0
  byte := fun _ => 0
  pos := 0
  fault := fun _ => none
  ops := 0

/-- The read of the deleted page 1 uses up the slot the delete gave back, so
the write of page 3 lands on the slot of page 2. -/
def aliasingCalls : List DiskCall :=
  [.write 1 (.zero _), .write 2 (.zero _), .delete 1, .read 1 (.zero _), .write 3 (.zero _)]

theorem aliasingCalls_alias :
    ¬Throughout call DoesNotAlias [] aliasingCalls (fresh blankFile) := by
  intro h
  have hrun : (run call aliasingCalls (fresh blankFile)).map
      (fun dm => (dm.pages.lookup 2, dm.pages.lookup 3)) =
      some (some pageSize, some pageSize) := by
    decide +kernel
  obtain ⟨dm, hdm, hlook⟩ := Option.map_eq_some_iff.mp hrun
  obtain ⟨h₂, h₃⟩ := Prod.mk.inj hlook
  have h23 := (h.last hdm).1.injective 2 3 pageSize h₂ h₃
  exact absurd h23 (by decide)

/-- Page 3 takes the slot of page 1, and page 4, which nobody wrote, is read
with no slot free. -/
def reusingCalls : List DiskCall :=
  [.write 1 (.ofFn pageSize fun _ => 1), .write 2 (.ofFn pageSize fun _ => 2), .delete 1,
    .write 3 (.ofFn pageSize fun _ => 3), .read 4 (.zero _)]

theorem reusingCalls_read_back :
    ∃ dm, run call reusingCalls (fresh blankFile) = some dm ∧ ∀ buf,
      (∃ dm', dm.readPage 2 buf = .ok (.ok (.ofFn pageSize fun _ => 2), dm')) ∧
        ∃ dm', dm.readPage 3 buf = .ok (.ok (.ofFn pageSize fun _ => 3), dm') := by
  obtain ⟨dm, hdm⟩ := Option.isSome_iff_exists.mp (by decide +kernel :
    (run call reusingCalls (fresh blankFile)).isSome = true)
  have hcalls : Along call TakesNoSlot [] reusingCalls (fresh blankFile) := by decide +kernel
  obtain ⟨-, hread⟩ := (doesNotAlias_throughout blankFile (fun _ => rfl) _
    (new_eq_fresh fun _ => rfl) _ hcalls).last hdm
  exact ⟨dm, hdm, fun buf => ⟨hread 2 _ rfl buf, hread 3 _ rfl buf⟩⟩

end DiskManager

end StorageEngine
