import StorageEngine.Disk.Calls

/-!
How much room the disk manager takes.

A slot that a deleted page gave back is used again before the file is used
further, so that there are as many slots as there were pages at one time at
most. The file is grown by doubling, and never to more than twice that.
-/

namespace StorageEngine

open Lib

namespace DiskManager

/-- The pages that were written and not deleted since. -/
def livePages : List DiskCall → Finset PageId
  | [] => ∅
  | .write p _ :: hist => insert p (livePages hist)
  | .read _ _ :: hist => livePages hist
  | .delete p :: hist => (livePages hist).erase p

/-- The greatest number of pages there were at one time. -/
def highWater : List DiskCall → ℕ
  | [] => 0
  | c :: hist => max (highWater hist) (livePages (c :: hist)).card

/-- The pages mapped are those there are, the slots as many as there were
pages at one time, and the file is at most twice as long, but for its length
at the start. -/
structure TakesRoom (hist : List DiskCall) (dm : DiskManager) : Prop where
  mapped : dm.pages.keys.toFinset = livePages hist
  slots : dm.slots = highWater hist
  len : dm.dbFile.len ≤ (max dbIoSize (2 * (highWater hist + 1)) + 1) * pageSize

section TakesRoom

variable {hist : List DiskCall} {c : DiskCall} {dm dm' : DiskManager} {p : PageId}

theorem mem_livePages : ∀ {hist : List DiskCall},
    p ∈ livePages hist ↔ lastWrite hist p ≠ none := by
  intro hist
  induction hist with
  | nil => simp [livePages, lastWrite]
  | cons c hist ih =>
      cases c with
      | write q data =>
          rw [livePages, lastWrite, Finset.mem_insert, ih]
          split <;> simp [*]
      | read q buf => exact ih
      | delete q =>
          rw [livePages, lastWrite, Finset.mem_erase, ih]
          split <;> simp [*]

theorem Tracks.keys_pages (h : Tracks hist dm) : dm.pages.keys.toFinset = livePages hist := by
  ext p
  have hcontents := h.2.2 p
  rw [List.mem_toFinset, mem_livePages, ← hcontents, contents, Ne, Option.map_eq_none_iff,
    ← Ne, Option.ne_none_iff_isSome]
  exact AList.lookup_isSome.symm

theorem Tracks.len_pages (h : Tracks hist dm) :
    HashMap.len dm.pages = (livePages hist).card := by
  rw [HashMap.len_eq_length_keys, ← h.keys_pages,
    List.toFinset_card_of_nodup dm.pages.keys_nodup]

/-- The slot of a page is one there is, or one more. -/
theorem slotFor_room {dm₁ : DiskManager} {o : ℕ} (hslot : dm.slotFor p = (o, dm₁)) :
    HashMap.len (dm₁.pages.insert p o) + dm₁.freeSlots.length =
        max dm.slots (HashMap.len (dm₁.pages.insert p o)) ∧
      dm₁.pageCapacity ≤ max dm.pageCapacity (2 * (dm.slots + 1)) := by
  rcases slotFor_cases hslot with ⟨hlook, rfl⟩ | ⟨hlook, rest, hfree, rfl⟩ |
    ⟨hlook, hfree, rfl, hgrow⟩
  · have hinsert := HashMap.len_insert_of_lookup_eq_some o hlook
    refine ⟨?_, le_max_left _ _⟩
    rw [hinsert, slots]
    omega
  · have hinsert := HashMap.len_insert_of_lookup_eq_none o hlook
    refine ⟨?_, le_max_left _ _⟩
    simp only [hinsert, slots, hfree, List.length_cons]
    omega
  · have hinsert := HashMap.len_insert_of_lookup_eq_none (HashMap.len dm.pages * pageSize) hlook
    have hslots : dm.slots = HashMap.len dm.pages := by simp [slots, hfree]
    rcases hgrow with ⟨⟨-, -, hfull⟩, rfl⟩ | ⟨-, rfl⟩
    · refine ⟨?_, le_max_of_le_right ?_⟩
      · simp only [grow, hinsert, hslots, hfree, List.length_nil]
        omega
      · show dm.pageCapacity * 2 ≤ _
        omega
    · refine ⟨?_, le_max_left _ _⟩
      rw [hinsert, hslots, hfree, List.length_nil]
      omega

/-- **One call** takes a slot only where all of them are in use. -/
theorem call_slots (hs : dm.Sized) (hp : dm.Packed) (hc : TakesNoSlot hist c dm)
    (hcall : call c dm = some dm') : dm'.slots = max dm.slots (HashMap.len dm'.pages) ∧
      dm'.pageCapacity ≤ max dm.pageCapacity (2 * (dm.slots + 1)) := by
  cases c with
  | write p data =>
      obtain ⟨o, dm₁, hslot, hg⟩ := slotFor_grants hs hp p
      obtain ⟨dbFile, heq, -⟩ := writePage_eq data hslot hg.noFaults
      obtain rfl : { dm₁ with dbFile, pages := dm₁.pages.insert p o } = dm' := by
        simpa [call, heq] using hcall
      exact slotFor_room hslot
  | read p buf =>
      obtain ⟨o, dm₁, hslot, hg⟩ := slotFor_grants hs hp p
      have heq := readPage_eq buf hslot hg.noFaults hg.offset_add_le
      obtain rfl : dm₁.afterRead (o + pageSize) = dm' := by simpa [call, heq] using hcall
      have hfree : dm₁.freeSlots = dm.freeSlots := by
        rcases hc p buf rfl with hmapped | hnil
        · obtain ⟨o', hlook⟩ := Option.ne_none_iff_exists'.mp hmapped
          obtain ⟨-, rfl⟩ := Prod.mk.inj (hslot.symm.trans (slotFor_mapped hlook))
          rfl
        · rw [hnil]
          exact List.sublist_nil.mp (hnil ▸ hg.free)
      have hslots : (dm₁.afterRead (o + pageSize)).slots = dm.slots := by
        show HashMap.len dm₁.pages + dm₁.freeSlots.length = _
        rw [hg.pages, hfree, slots]
      refine ⟨?_, (slotFor_room hslot).2⟩
      rw [hslots]
      refine (max_eq_left ?_).symm
      show HashMap.len dm₁.pages ≤ _
      rw [hg.pages, slots]
      exact Nat.le_add_right _ _
  | delete p =>
      obtain rfl : (dm.deletePage p).2 = dm' := Option.some.inj hcall
      cases hlook : dm.pages.lookup p with
      | none =>
          simp only [deletePage, hlook]
          exact ⟨(max_eq_left (Nat.le_add_right _ _)).symm, le_max_left _ _⟩
      | some o =>
          have herase := HashMap.len_erase_of_lookup_eq_some hlook
          simp only [deletePage, hlook, slots, List.length_cons]
          exact ⟨by omega, le_max_left _ _⟩

/-- The invariant behind `TakesRoom`. -/
def Fills (hist : List DiskCall) (dm : DiskManager) : Prop :=
  Tracks hist dm ∧ dm.slots = highWater hist ∧
    dm.pageCapacity ≤ max dbIoSize (2 * (highWater hist + 1))

theorem Fills.takesRoom (h : Fills hist dm) : TakesRoom hist dm := by
  obtain ⟨ht, hslots, hcap⟩ := h
  refine ⟨ht.keys_pages, hslots, ?_⟩
  rw [ht.1.len]
  exact Nat.mul_le_mul_right _ (Nat.succ_le_succ hcap)

theorem fresh_fills {dbFile : DbFile} (hf : dbFile.NoFaults) : Fills [] (fresh dbFile) :=
  ⟨fresh_tracks hf, rfl, le_max_left _ _⟩

theorem call_fills (hist : List DiskCall) (c : DiskCall) (dm dm' : DiskManager)
    (h : Fills hist dm) (hc : TakesNoSlot hist c dm) (hcall : call c dm = some dm') :
    Fills (c :: hist) dm' := by
  obtain ⟨ht, hslots, hcap⟩ := h
  have ht' := call_tracks hist c dm dm' ht hc hcall
  obtain ⟨hslots', hcap'⟩ := call_slots ht.1 ht.2.1 hc hcall
  have hwater : dm'.slots = highWater (c :: hist) := by
    rw [hslots', hslots, ht'.len_pages, highWater]
  refine ⟨ht', hwater, hcap'.trans ?_⟩
  have hgrows : highWater hist ≤ highWater (c :: hist) := le_max_left _ _
  omega

/-- **No room is lost.** In a run none of whose reads of an unmapped page
takes a slot off the free list, the slots in use or free are as many as there
were pages at one time at most, however many were written and deleted. -/
theorem takesRoom_throughout (dbFile : DbFile) (hf : dbFile.NoFaults) (dm : DiskManager)
    (hnew : DiskManager.new dbFile = .ok dm) (calls : List DiskCall)
    (hcalls : Along call TakesNoSlot [] calls dm) :
    Throughout call TakesRoom [] calls dm := by
  obtain rfl : fresh dbFile = dm := by simpa [new_eq_fresh hf] using hnew
  exact (throughout_of_along call_fills (fresh_fills hf) hcalls).mono fun _ _ h => h.takesRoom

/-- Two pages were the most there were at one time. -/
theorem takesRoom_throughout_reusing :
    ∃ dm, run call reusingCalls (fresh blankFile) = some dm ∧ dm.slots = 2 ∧
      dm.pages.keys.toFinset = {3, 2} := by
  obtain ⟨dm, hdm⟩ := Option.isSome_iff_exists.mp (by decide +kernel :
    (run call reusingCalls (fresh blankFile)).isSome = true)
  have hcalls : Along call TakesNoSlot [] reusingCalls (fresh blankFile) := by decide +kernel
  have hroom := (takesRoom_throughout blankFile (fun _ => rfl) _
    (new_eq_fresh fun _ => rfl) _ hcalls).last hdm
  refine ⟨dm, hdm, ?_, ?_⟩
  · rw [hroom.slots]
    decide
  · rw [hroom.mapped]
    decide

end TakesRoom

end DiskManager

end StorageEngine
