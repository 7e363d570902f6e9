import StorageEngine.Disk.File

/-!
The disk manager (`disk_manager.rs`): a map from page ids to offsets of one
file, and a list of offsets given back by deleted pages.

The counters `num_writes` and `num_deletes` are left out; nothing reads
them. `free_slots` is kept with its end first, so that `pop` and `push` act
on the head of the list.
-/

namespace StorageEngine

/-- `HashMap<K, V>`; where the source iterates over one, the order of the
entries is a parameter of the model. -/
abbrev HashMap (K V : Type) := AList fun _ : K => V

namespace HashMap

variable {K V : Type}

/-- `HashMap::len` -/
def len (m : HashMap K V) : ℕ := m.entries.length

theorem len_eq_length_keys (m : HashMap K V) : len m = m.keys.length := by
  simp [len, AList.keys, List.keys]

variable [DecidableEq K]

theorem len_insert_of_lookup_eq_none {m : HashMap K V} {k : K} (v : V)
    (h : m.lookup k = none) : len (m.insert k v) = len m + 1 := by
  rw [AList.lookup_eq_none] at h
  rw [len, AList.entries_insert_of_notMem h]
  rfl

theorem len_insert_of_lookup_eq_some {m : HashMap K V} {k : K} {v : V} (w : V)
    (h : m.lookup k = some v) : len (m.insert k w) = len m := by
  have hk : k ∈ m.keys := AList.mem_keys.mp (AList.lookup_isSome.mp (by simp [h]))
  rw [len_eq_length_keys, len_eq_length_keys, AList.keys_insert, List.length_cons,
    List.length_erase_of_mem hk]
  have := List.length_pos_of_mem hk
  omega

theorem len_erase_of_lookup_eq_some {m : HashMap K V} {k : K} {v : V}
    (h : m.lookup k = some v) : len (m.erase k) + 1 = len m := by
  have hk : k ∈ m.keys := AList.mem_keys.mp (AList.lookup_isSome.mp (by simp [h]))
  rw [len_eq_length_keys, len_eq_length_keys, AList.keys_erase, List.length_erase_of_mem hk]
  have := List.length_pos_of_mem hk
  omega

theorem lookup_insert_eq (m : HashMap K V) (k : K) (v : V) (k' : K) :
    (m.insert k v).lookup k' = if k' = k then some v else m.lookup k' := by
  split
  · next h => subst h; exact AList.lookup_insert m
  · next h => exact AList.lookup_insert_ne h

theorem lookup_erase_eq (m : HashMap K V) (k k' : K) :
    (m.erase k).lookup k' = if k' = k then none else m.lookup k' := by
  split
  · next h => subst h; exact AList.lookup_erase _ m
  · next h => exact AList.lookup_erase_ne h

theorem lookup_erase_eq_some {m : HashMap K V} {k k' : K} {v : V} :
    (m.erase k).lookup k' = some v ↔ k' ≠ k ∧ m.lookup k' = some v := by
  rw [lookup_erase_eq]
  split
  · next h => simp [h]
  · next h => simp [h]

theorem mem_entries_iff {m : HashMap K V} {k : K} {v : V} :
    (⟨k, v⟩ : Sigma fun _ : K => V) ∈ m.entries ↔ m.lookup k = some v :=
  AList.mem_lookup_iff.symm

theorem entries_perm_erase {m : HashMap K V} {k : K} {v : V} (h : m.lookup k = some v) :
    m.entries.Perm (⟨k, v⟩ :: (m.erase k).entries) := by
  have hk : k ∈ m.entries.keys := AList.lookup_isSome.mp (by simp [h])
  obtain ⟨w, l₁, l₂, -, hsplit, herase⟩ := List.exists_of_kerase hk
  have hw : m.lookup k = some w := mem_entries_iff.mp (by simp [hsplit])
  obtain rfl : v = w := by simpa [h] using hw
  show m.entries.Perm (⟨k, v⟩ :: m.entries.kerase k)
  rw [herase, hsplit]
  exact List.perm_middle

end HashMap

structure DiskManager where
  dbFile : DbFile
  pageCapacity : ℕ
  pages : HashMap PageId ℕ
  freeSlots : List ℕ

namespace DiskManager

/-- `DiskManager::new` on a file that could be opened. A failing `set_len`
is ignored. -/
def new (dbFile : DbFile) : Except Panic DiskManager :=
  let dbFile := (dbFile.setLen ((dbIoSize + 1) * pageSize)).2
  match dbFile.metadataLen with
  | (.error _, _) => .error .unwrap
  | (.ok len, dbFile) =>
      if len < dbIoSize * pageSize then .error .explicit
      else .ok { dbFile, pageCapacity := dbIoSize, pages := ∅, freeSlots := [] }

/-- Double the capacity; a failing `set_len` is ignored. -/
def grow (dm : DiskManager) : DiskManager :=
  let pageCapacity := dm.pageCapacity * 2
  { dm with
    pageCapacity
    dbFile := (dm.dbFile.setLen ((pageCapacity + 1) * pageSize)).2 }

/-- The offset `write_page` and `read_page` use for a page: the one it is
mapped to, else the last free slot, else the first offset past the mapped
pages, for which the file is grown when it is full. -/
def slotFor (dm : DiskManager) (pageId : PageId) : ℕ × DiskManager :=
  match dm.pages.lookup pageId with
  | some existingOffset => (existingOffset, dm)
  | none =>
      match dm.freeSlots with
      | newOffset :: freeSlots => (newOffset, { dm with freeSlots })
      | [] =>
          let newOffset := HashMap.len dm.pages * pageSize
          if dm.pageCapacity ≤ HashMap.len dm.pages + 1 then (newOffset, dm.grow)
          else (newOffset, dm)

def writePage (dm : DiskManager) (pageId : PageId) (pageData : Page) :
    Except IoError Unit × DiskManager :=
  let (offset, dm) := dm.slotFor pageId
  match dm.dbFile.seek offset with
  | (.error e, dbFile) => (.error e, { dm with dbFile })
  | (.ok _, dbFile) =>
      match dbFile.writeAll pageData with
      | (.error e, dbFile) => (.error e, { dm with dbFile })
      | (.ok _, dbFile) =>
          match dbFile.flush with
          | (.error e, dbFile) =>
              (.error e, { dm with dbFile, pages := dm.pages.insert pageId offset })
          | (.ok _, dbFile) =>
              (.ok (), { dm with dbFile, pages := dm.pages.insert pageId offset })

/-- `read_page` into the buffer `pageData`, which is what it returns. A read
that hits the end of the file is reported as a success. -/
def readPage (dm : DiskManager) (pageId : PageId) (pageData : Page) :
    Except Panic (Except IoError Page × DiskManager) :=
  let (offset, dm) := dm.slotFor pageId
  match dm.dbFile.metadataLen with
  | (.error e, dbFile) => .ok (.error e, { dm with dbFile })
  | (.ok fileSize, dbFile) =>
      if fileSize < offset then .error .explicit
      else
        match dbFile.seek offset with
        | (.error e, dbFile) => .ok (.error e, { dm with dbFile })
        | (.ok _, dbFile) =>
            match dbFile.readExact pageData with
            | (.ok _, pageData, dbFile) => .ok (.ok pageData, { dm with dbFile })
            | (.error .unexpectedEof, pageData, dbFile) =>
                .ok (.ok pageData, { dm with dbFile })
            | (.error e, _, dbFile) => .ok (.error e, { dm with dbFile })

def deletePage (dm : DiskManager) (pageId : PageId) : Except IoError Unit × DiskManager :=
  match dm.pages.lookup pageId with
  | some offset =>
      (.ok (), { dm with
        pages := dm.pages.erase pageId, freeSlots := offset :: dm.freeSlots })
  | none => (.ok (), dm)

end DiskManager

end StorageEngine
