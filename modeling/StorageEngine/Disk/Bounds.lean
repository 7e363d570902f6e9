import StorageEngine.Disk.Faults

/-!
Where the disk manager touches its file.

The capacity is doubled when a fresh offset is taken and the mapped pages have
nearly reached it. Deletes shrink the mapped pages, and slots off the free
list are taken without a look at the capacity, a read of an unmapped page
takes one and maps nothing; still every slot there is was below the capacity
when it was taken, and the capacity does not shrink. Only `set_len` has to
succeed for the file to follow it. Every other operation may fail.
-/

namespace StorageEngine

open Lib

/-- The page for which a call takes a slot. -/
def DiskCall.slotPage : DiskCall → Option PageId
  | .write pageId _ => some pageId
  | .read pageId _ => some pageId
  | .delete _ => none

/-- The disk manager with the offsets its calls have used so far. -/
structure LoggedDisk where
  diskManager : DiskManager
  used : List ℕ

namespace LoggedDisk

/-- A call, and the offset it seeks for its page. -/
def step (c : DiskCall) (s : LoggedDisk) : Option LoggedDisk :=
  (DiskManager.call c s.diskManager).map fun diskManager =>
    ⟨diskManager, (c.slotPage.map fun p => (s.diskManager.slotFor p).1).toList ++ s.used⟩

/-- The `set_len` of a call that doubles the capacity succeeds. -/
def SetLenSucceeds (_ : List DiskCall) (c : DiskCall) (s : LoggedDisk) : Prop :=
  ∀ p, c.slotPage = some p → s.diskManager.Grows p →
    s.diskManager.dbFile.fault s.diskManager.dbFile.ops = none

/-- Every offset in use, and every offset ever used, is that of a page of the
file; there is room for one more slot; and the length of the file is a `u64`. -/
structure InBounds (s : LoggedDisk) : Prop where
  offsets : ∀ o, s.diskManager.UsesOffset o ∨ o ∈ s.used →
    pageSize ∣ o ∧ o + pageSize ≤ s.diskManager.dbFile.len
  room : s.diskManager.slots < s.diskManager.pageCapacity
  fits : (s.diskManager.pageCapacity + 1) * pageSize < 2 ^ 64

/-- A read does not panic, and where `metadata` and `seek` have succeeded
`read_exact` does not find the end of the file. -/
def ReadsInside (_ : List DiskCall) (c : DiskCall) (s : LoggedDisk) : Prop :=
  ∀ p buf, c = .read p buf →
    (∃ reply, s.diskManager.readPage p buf = .ok reply) ∧
      ∀ len file file', (s.diskManager.slotFor p).2.dbFile.metadataLen = (.ok len, file) →
        file.seek (s.diskManager.slotFor p).1 = (.ok (), file') →
          (file'.readExact buf).1 ≠ .error .unexpectedEof

end LoggedDisk

namespace DiskManager

variable {dm dm₁ dm' : DiskManager} {p : PageId} {o : ℕ}

/-- There are no more pages than ids. -/
theorem len_pages_le (pages : HashMap PageId ℕ) : HashMap.len pages ≤ 2 ^ 32 := by
  have hinj : Function.Injective UInt32.toFin := fun a b h => UInt32.toFin_inj.mp h
  have hnodup : (pages.keys.map UInt32.toFin).Nodup := pages.keys_nodup.map hinj
  have hcard := hnodup.length_le_card
  rw [List.length_map, Fintype.card_fin] at hcard
  rw [HashMap.len_eq_length_keys]
  exact hcard

/-- The slots are below the capacity, and the file is as long as it says. -/
structure Bounded (dm : DiskManager) : Prop where
  roomy : dm.Roomy
  len : dm.dbFile.len = (dm.pageCapacity + 1) * pageSize
  cap : dm.pageCapacity ≤ 2 ^ 33

theorem Bounded.slotFor (h : dm.Bounded) (hslot : dm.slotFor p = (o, dm₁))
    (hset : dm.Grows p → dm.dbFile.fault dm.dbFile.ops = none) :
    dm₁.Bounded ∧ dm.pageCapacity ≤ dm₁.pageCapacity ∧
      ∃ k < dm₁.pageCapacity, o = k * pageSize := by
  obtain ⟨hroomy, hfits, -⟩ := h.roomy.slotFor hslot
  obtain ⟨hle, -, -, hlen⟩ := slotFor_file hslot
  refine ⟨⟨hroomy, ?_, ?_⟩, hle, hfits⟩
  · rcases hlen with hlen | ⟨hlen, hcap | ⟨hgrows, hfault⟩⟩
    · exact hlen
    · rw [hlen, hcap, h.len]
    · exact absurd (hset hgrows) hfault
  · have hcap := h.cap
    rcases slotFor_cases hslot with ⟨-, rfl⟩ | ⟨-, rest, -, rfl⟩ | ⟨hlook, -, -, hgrow⟩
    · exact hcap
    · exact hcap
    rcases hgrow with ⟨⟨-, -, hfull⟩, rfl⟩ | ⟨-, rfl⟩
    · -- the page itself is not mapped yet, so that the mapped ones are not all ids
      have hpages := len_pages_le (dm.pages.insert p o)
      rw [HashMap.len_insert_of_lookup_eq_none o hlook] at hpages
      have hgrown : dm.grow.pageCapacity = dm.pageCapacity * 2 := rfl
      omega
    · exact hcap

theorem Bounded.offset_add_le (h : dm.Bounded) {k : ℕ} (hk : k < dm.pageCapacity) :
    k * pageSize + pageSize ≤ dm.dbFile.len := by
  rw [h.len]
  simp only [pageSize]
  omega

theorem Bounded.writePage (h : dm.Bounded) (data : Page)
    (hset : dm.Grows p → dm.dbFile.fault dm.dbFile.ops = none) :
    (dm.writePage p data).2.Bounded ∧
      (dm.writePage p data).2.pageCapacity = (dm.slotFor p).2.pageCapacity := by
  obtain ⟨o, dm₁, hslot⟩ : ∃ o dm₁, dm.slotFor p = (o, dm₁) := ⟨_, _, rfl⟩
  obtain ⟨h₁, -, k, hk, rfl⟩ := h.slotFor hslot hset
  have hin := h₁.offset_add_le hk
  obtain ⟨dbFile, hwrite, hend⟩ := writePage_cases data hslot
  have hlen : dbFile.len = (dm₁.pageCapacity + 1) * pageSize := by
    have hle := hwrite.len_le
    rw [max_eq_left hin] at hle
    exact (le_antisymm hle hwrite.le_len).trans h₁.len
  rcases hend with ⟨-, heq⟩ | ⟨-, -, heq⟩
  · rw [heq, hslot]
    exact ⟨⟨h₁.roomy.congr rfl (List.Sublist.refl _) le_rfl, hlen, h₁.cap⟩, rfl⟩
  · rw [heq, hslot]
    exact ⟨⟨h.roomy.mapped hslot dbFile, hlen, h₁.cap⟩, rfl⟩

theorem Bounded.readPage (h : dm.Bounded) (buf : Page)
    (hset : dm.Grows p → dm.dbFile.fault dm.dbFile.ops = none) :
    ∃ reply dm', dm.readPage p buf = .ok (reply, dm') ∧ dm'.Bounded ∧
      dm'.pageCapacity = (dm.slotFor p).2.pageCapacity := by
  obtain ⟨o, dm₁, hslot⟩ : ∃ o dm₁, dm.slotFor p = (o, dm₁) := ⟨_, _, rfl⟩
  obtain ⟨h₁, -, k, hk, rfl⟩ := h.slotFor hslot hset
  obtain ⟨reply, dbFile, heq, pos, ops, rfl⟩ := readPage_inside buf hslot (h₁.offset_add_le hk)
  rw [hslot]
  exact ⟨reply, _, heq, ⟨h₁.roomy.congr rfl (List.Sublist.refl _) le_rfl, h₁.len, h₁.cap⟩, rfl⟩

theorem Bounded.deletePage (h : dm.Bounded) (p : PageId) : (dm.deletePage p).2.Bounded := by
  obtain ⟨freeSlots, heq⟩ := dm.deletePage_eq p
  have hroomy := h.roomy.deletePage p
  rw [heq] at hroomy ⊢
  exact ⟨hroomy, h.len, h.cap⟩

/-- A new file has no slot yet. -/
theorem new_bounded {dbFile : DbFile} (hset : dbFile.fault dbFile.ops = none)
    (h : DiskManager.new dbFile = .ok dm) : dm.Bounded := by
  obtain ⟨hcap, -, -⟩ := new_eq_ok h
  refine ⟨(new_keepsSlots h).roomy, ?_, ?_⟩
  · simp only [DiskManager.new, DbFile.setLen, hset] at h
    split at h
    · simp at h
    next len file heq =>
    have hmoved := DbFile.metadataLen_moved { dbFile.tick with
      len := (dbIoSize + 1) * pageSize
      byte := fun i => if i < dbFile.len then dbFile.byte i else 0 }
    rw [heq] at hmoved
    obtain ⟨pos, ops, rfl⟩ := hmoved
    split at h
    · simp at h
    · obtain rfl := Except.ok.inj h
      rfl
  · rw [hcap]
    decide

end DiskManager

namespace LoggedDisk

open DiskManager

variable {s s' : LoggedDisk}

/-- The invariant: what was used was below the capacity. -/
structure Bounded (s : LoggedDisk) : Prop where
  disk : s.diskManager.Bounded
  used : ∀ o ∈ s.used, ∃ k < s.diskManager.pageCapacity, o = k * pageSize

theorem Bounded.inBounds (h : s.Bounded) : s.InBounds := by
  refine ⟨?_, h.disk.roomy.room, ?_⟩
  · intro o ho
    have hbelow : ∃ k < s.diskManager.pageCapacity, o = k * pageSize := by
      rcases ho with ho | ho
      · exact h.disk.roomy.offsets o ho
      · exact h.used o ho
    obtain ⟨k, hk, rfl⟩ := hbelow
    exact ⟨Dvd.intro_left k rfl, h.disk.offset_add_le hk⟩
  · have hcap := h.disk.cap
    simp only [pageSize]
    omega

/-- The offset of a slot goes to the log. -/
theorem Bounded.use (h : s.Bounded) {p : PageId} {dm' : DiskManager}
    (hset : s.diskManager.Grows p → s.diskManager.dbFile.fault s.diskManager.dbFile.ops = none)
    (hdm' : dm'.Bounded) (hcap : dm'.pageCapacity = (s.diskManager.slotFor p).2.pageCapacity) :
    Bounded ⟨dm', (s.diskManager.slotFor p).1 :: s.used⟩ := by
  obtain ⟨o', dm₁, hslot⟩ : ∃ o' dm₁, s.diskManager.slotFor p = (o', dm₁) := ⟨_, _, rfl⟩
  obtain ⟨-, hle, hfits⟩ := h.disk.slotFor hslot hset
  rw [hslot] at hcap ⊢
  refine ⟨hdm', fun o ho => ?_⟩
  rw [hcap]
  rcases List.mem_cons.mp ho with rfl | ho
  · exact hfits
  · obtain ⟨k, hk, rfl⟩ := h.used o ho
    exact ⟨k, hk.trans_le hle, rfl⟩

/-- **One call stays inside the file.** -/
theorem step_bounded (hist : List DiskCall) (c : DiskCall) (s s' : LoggedDisk) (h : s.Bounded)
    (hset : SetLenSucceeds hist c s) (hstep : step c s = some s') : s'.Bounded := by
  obtain ⟨dm', hcall, rfl⟩ := Option.map_eq_some_iff.mp hstep
  cases c with
  | write p data =>
      obtain rfl := Option.some.inj hcall
      obtain ⟨hdm', hcap⟩ := h.disk.writePage data (hset p rfl)
      exact h.use (hset p rfl) hdm' hcap
  | read p buf =>
      obtain ⟨reply, dm₁, heq, hdm', hcap⟩ := h.disk.readPage buf (hset p rfl)
      obtain rfl : dm₁ = dm' := by simpa [call, heq] using hcall
      exact h.use (hset p rfl) hdm' hcap
  | delete p =>
      obtain rfl := Option.some.inj hcall
      refine ⟨h.disk.deletePage p, fun o ho => ?_⟩
      obtain ⟨freeSlots, heq⟩ := s.diskManager.deletePage_eq p
      rw [heq]
      exact h.used o ho

theorem Bounded.readsInside (h : s.Bounded) (hist : List DiskCall) (c : DiskCall)
    (hset : SetLenSucceeds hist c s) : ReadsInside hist c s := by
  rintro p buf rfl
  obtain ⟨reply, dm', heq, -⟩ := h.disk.readPage buf (hset p rfl)
  obtain ⟨o, dm₁, hslot⟩ : ∃ o dm₁, s.diskManager.slotFor p = (o, dm₁) := ⟨_, _, rfl⟩
  obtain ⟨h₁, -, k, hk, rfl⟩ := h.disk.slotFor hslot (hset p rfl)
  refine ⟨⟨_, heq⟩, ?_⟩
  rw [hslot]
  intro len file file' hmeta hseek
  have hmoved := dm₁.dbFile.metadataLen_moved
  have hmoved' := file.seek_moved (k * pageSize)
  rw [hmeta] at hmoved
  rw [hseek] at hmoved'
  obtain ⟨pos, ops, hfile⟩ : dm₁.dbFile.Moved file' := hmoved.trans hmoved'
  apply DbFile.readExact_inside
  rw [DbFile.seek_eq_ok hseek, hfile]
  exact h₁.offset_add_le hk

/-- **Every disk access stays inside the file**, in every run on a new disk
manager whose `set_len`s succeed. -/
theorem accesses_inside (dbFile : DbFile) (hset : dbFile.fault dbFile.ops = none)
    (dm : DiskManager) (hnew : DiskManager.new dbFile = .ok dm) (calls : List DiskCall)
    (hsets : Before step SetLenSucceeds [] calls ⟨dm, []⟩) :
    Throughout step (fun _ s => s.InBounds) [] calls ⟨dm, []⟩ ∧
      Before step ReadsInside [] calls ⟨dm, []⟩ := by
  have hnew : Bounded ⟨dm, []⟩ := ⟨new_bounded hset hnew, by simp⟩
  have hbounded : Throughout step (fun _ s => s.Bounded) [] calls ⟨dm, []⟩ :=
    throughout_of_along step_bounded hnew hsets.along
  exact ⟨hbounded.mono fun _ _ h => h.inBounds,
    hbounded.before (fun hist c s h _ hc => h.readsInside hist c hc) hsets⟩

/-- A write, and a read of a page that was never written. -/
theorem accesses_inside_write_read :
    Throughout step (fun _ s => s.InBounds) [] [.write 1 (.zero _), .read 7 (.zero _)]
        ⟨fresh blankFile, []⟩ ∧
      Before step ReadsInside [] [.write 1 (.zero _), .read 7 (.zero _)]
        ⟨fresh blankFile, []⟩ := by
  refine accesses_inside blankFile rfl _ (new_eq_fresh fun _ => rfl) _ ?_
  refine ⟨fun _ _ _ => rfl, fun s hs => ⟨fun p _ _ => ?_, fun _ _ => trivial⟩⟩
  have hfault : (step (.write 1 (.zero _)) ⟨fresh blankFile, []⟩).map
      (fun s => s.diskManager.dbFile.fault s.diskManager.dbFile.ops) = some none := by
    decide +kernel
  simpa [hs] using hfault

end LoggedDisk

end StorageEngine
