import StorageEngine.Disk.Calls

/-!
The disk manager on a file whose operations may fail.

The slot of a page is taken before the file is asked for anything, and the
page is mapped to it after `seek` and `write_all`. What a failed write leaves
behind depends on where the slot came from. A mapped page keeps its slot, a
fresh offset is computed anew by the next write, but a slot off the free list
is lost: the fresh offsets, which count the mapped pages, then run into slots
that are in use.
-/

namespace StorageEngine

open Lib

namespace DbFile

variable {file file' : DbFile} {off : ℕ}

/-- The file is as it was, but for the page at `off`. -/
structure WrittenAt (file file' : DbFile) (off : ℕ) : Prop where
  fault : file'.fault = file.fault
  le_len : file.len ≤ file'.len
  len_le : file'.len ≤ max file.len (off + pageSize)
  byte : ∀ i < file.len, i < off ∨ off + pageSize ≤ i → file'.byte i = file.byte i

/-- What a write of one page that was stopped, or not, leaves behind. -/
theorem WrittenAt.of_store {src : List UInt8} (hsrc : src.length ≤ pageSize)
    (hfault : file'.fault = file.fault) (hlen : file'.len = (file.store off src).len)
    (hbyte : file'.byte = (file.store off src).byte) : file.WrittenAt file' off := by
  have hstore : (file.store off src).len = max file.len (off + src.length) := rfl
  rw [hstore] at hlen
  refine ⟨hfault, by omega, by omega, fun i hi hout => ?_⟩
  have hnot : ¬(off ≤ i ∧ i < off + src.length) := by omega
  rw [hbyte]
  simp only [store, hnot, hi, if_false, if_true]

theorem WrittenAt.pageAt (h : file.WrittenAt file' off) {o : ℕ} (hin : o + pageSize ≤ file.len)
    (hdisj : o + pageSize ≤ off ∨ off + pageSize ≤ o) : file'.pageAt o = file.pageAt o :=
  pageAt_congr fun i hi => h.byte (o + i) (by omega) (by omega)

/-- The file is as it was, but for its cursor. -/
def Moved (file file' : DbFile) : Prop := ∃ pos ops, file' = { file with pos, ops }

theorem Moved.trans {file'' : DbFile} (h : file.Moved file') (h' : file'.Moved file'') :
    file.Moved file'' := by
  obtain ⟨pos, ops, rfl⟩ := h
  obtain ⟨pos', ops', rfl⟩ := h'
  exact ⟨pos', ops', rfl⟩

theorem metadataLen_moved (file : DbFile) : file.Moved file.metadataLen.2 := by
  rw [metadataLen]
  split
  · exact ⟨_, _, rfl⟩
  · exact ⟨_, _, rfl⟩

theorem metadataLen_eq_ok {n : ℕ} (h : file.metadataLen = (.ok n, file')) : n = file.len := by
  rw [metadataLen] at h
  split at h
  · simp at h
  · exact (Except.ok.inj (Prod.mk.inj h).1).symm

theorem seek_moved (file : DbFile) (off : ℕ) : file.Moved (file.seek off).2 := by
  rw [seek]
  split
  · exact ⟨_, _, rfl⟩
  · exact ⟨_, _, rfl⟩

theorem seek_eq_ok (h : file.seek off = (.ok (), file')) : file'.pos = off := by
  rw [seek] at h
  split at h
  · simp at h
  · obtain ⟨-, rfl⟩ := Prod.mk.inj h
    rfl

theorem readExact_moved (file : DbFile) (buf : Page) : file.Moved (file.readExact buf).2.2 := by
  rw [readExact]
  split
  · exact ⟨_, _, rfl⟩
  split
  · exact ⟨_, _, rfl⟩
  · exact ⟨_, _, rfl⟩

/-- `read_exact` of a page that is in the file does not find its end. -/
theorem readExact_inside (buf : Page) (h : file.pos + pageSize ≤ file.len) :
    (file.readExact buf).1 ≠ .error .unexpectedEof := by
  rw [readExact]
  split
  · simp
  · simp [h]

end DbFile

namespace DiskManager

variable {dm dm₁ dm' : DiskManager} {p : PageId} {o : ℕ}

/-! ### A write, whatever fails -/

theorem writePage_of_seek_fails {data : Page} {w : ℕ} (hslot : dm.slotFor p = (o, dm'))
    (hseek : dm'.dbFile.fault dm'.dbFile.ops = some w) :
    dm.writePage p data = (.error .other, { dm' with dbFile := dm'.dbFile.tick }) := by
  simp only [writePage, hslot, DbFile.seek, hseek]

theorem writePage_of_write_fails {w : ℕ} (data : Page) (hslot : dm.slotFor p = (o, dm'))
    (hseek : dm'.dbFile.fault dm'.dbFile.ops = none)
    (hwrite : dm'.dbFile.fault (dm'.dbFile.ops + 1) = some w) :
    ∃ dbFile, dm.writePage p data = (.error .other, { dm' with dbFile }) ∧
      dbFile.fault = dm'.dbFile.fault ∧
      dbFile.len = (dm'.dbFile.store o (data.toList.take w)).len ∧
      dbFile.byte = (dm'.dbFile.store o (data.toList.take w)).byte := by
  have hwrite' : dm'.dbFile.tick.fault dm'.dbFile.tick.ops = some w := hwrite
  simp only [writePage, hslot, DbFile.seek, hseek, DbFile.writeAll, hwrite']
  exact ⟨_, rfl, rfl, rfl, rfl⟩

theorem writePage_of_write_ok (data : Page) (hslot : dm.slotFor p = (o, dm'))
    (hseek : dm'.dbFile.fault dm'.dbFile.ops = none)
    (hwrite : dm'.dbFile.fault (dm'.dbFile.ops + 1) = none) :
    ∃ dbFile, (dm.writePage p data).2 = { dm' with dbFile, pages := dm'.pages.insert p o } ∧
      dbFile.fault = dm'.dbFile.fault ∧
      dbFile.len = (dm'.dbFile.store o data.toList).len ∧
      dbFile.byte = (dm'.dbFile.store o data.toList).byte := by
  have hwrite' : dm'.dbFile.tick.fault dm'.dbFile.tick.ops = none := hwrite
  simp only [writePage, hslot, DbFile.seek, hseek, DbFile.writeAll, hwrite', DbFile.flush]
  split
  · next heq =>
      split at heq
      · obtain ⟨-, rfl⟩ := Prod.mk.inj heq
        exact ⟨_, rfl, rfl, rfl, rfl⟩
      · simp at heq
  · next heq =>
      split at heq
      · simp at heq
      · obtain ⟨-, rfl⟩ := Prod.mk.inj heq
        exact ⟨_, rfl, rfl, rfl, rfl⟩

/-- `write_page` returns at the `?` of `seek` or of `write_all`, before it has
mapped the page. -/
def FailsBeforeMapping (dm : DiskManager) (pageId : PageId) : Prop :=
  let file := (dm.slotFor pageId).2.dbFile
  file.fault file.ops ≠ none ∨ file.fault (file.ops + 1) ≠ none

/-- The two ends of a write. -/
theorem writePage_cases (data : Page) (hslot : dm.slotFor p = (o, dm₁)) :
    ∃ dbFile, dm₁.dbFile.WrittenAt dbFile o ∧
      (dm.FailsBeforeMapping p ∧ dm.writePage p data = (.error .other, { dm₁ with dbFile }) ∨
        ¬dm.FailsBeforeMapping p ∧ o + pageSize ≤ dbFile.len ∧
          (dm.writePage p data).2 = { dm₁ with dbFile, pages := dm₁.pages.insert p o }) := by
  simp only [FailsBeforeMapping, hslot]
  cases hseek : dm₁.dbFile.fault dm₁.dbFile.ops with
  | some w =>
      have hsame : dm₁.dbFile.WrittenAt dm₁.dbFile.tick o :=
        ⟨rfl, le_rfl, le_max_left _ _, fun _ _ _ => rfl⟩
      exact ⟨_, hsame, Or.inl ⟨by simp, writePage_of_seek_fails hslot hseek⟩⟩
  | none =>
      cases hwrite : dm₁.dbFile.fault (dm₁.dbFile.ops + 1) with
      | some w =>
          obtain ⟨dbFile, heq, hfault, hlen, hbyte⟩ :=
            writePage_of_write_fails data hslot hseek hwrite
          have htake : (data.toList.take w).length ≤ pageSize := by
            rw [List.length_take, data.length_toList]
            exact min_le_right _ _
          exact ⟨dbFile, .of_store htake hfault hlen hbyte, Or.inl ⟨by simp, heq⟩⟩
      | none =>
          obtain ⟨dbFile, heq, hfault, hlen, hbyte⟩ := writePage_of_write_ok data hslot hseek hwrite
          have hdata : data.toList.length = pageSize := data.length_toList
          refine ⟨dbFile, .of_store hdata.le hfault hlen hbyte, Or.inr ⟨by simp, ?_, heq⟩⟩
          have hstore : (dm₁.dbFile.store o data.toList).len =
              max dm₁.dbFile.len (o + data.toList.length) := rfl
          rw [hlen, hstore, hdata]
          exact le_max_right _ _

/-- A read inside the file completes, and moves no more than its cursor. -/
theorem readPage_inside (buf : Page) (hslot : dm.slotFor p = (o, dm₁))
    (ho : o + pageSize ≤ dm₁.dbFile.len) :
    ∃ reply dbFile, dm.readPage p buf = .ok (reply, { dm₁ with dbFile }) ∧
      dm₁.dbFile.Moved dbFile := by
  have hmeta := dm₁.dbFile.metadataLen_moved
  simp only [readPage, hslot]
  split
  · next heq =>
      rw [heq] at hmeta
      exact ⟨_, _, rfl, hmeta⟩
  next len file heq =>
  rw [heq] at hmeta
  have hle : ¬len < o := by
    rw [DbFile.metadataLen_eq_ok heq]
    omega
  have hseek := file.seek_moved o
  rw [if_neg hle]
  split
  · next heq =>
      rw [heq] at hseek
      exact ⟨_, _, rfl, hmeta.trans hseek⟩
  next file' heq =>
  rw [heq] at hseek
  have hread := file'.readExact_moved buf
  split
  · next heq =>
      rw [heq] at hread
      exact ⟨_, _, rfl, (hmeta.trans hseek).trans hread⟩
  · next heq =>
      rw [heq] at hread
      exact ⟨_, _, rfl, (hmeta.trans hseek).trans hread⟩
  · next heq =>
      rw [heq] at hread
      exact ⟨_, _, rfl, (hmeta.trans hseek).trans hread⟩

/-! ### The allocator -/

/-- The call loses no slot: where it fails before the page is mapped, the
slots are as they were. -/
def LosesNoSlot (_ : List DiskCall) (c : DiskCall) (dm : DiskManager) : Prop :=
  ∀ p data, c = .write p data → dm.FailsBeforeMapping p →
    (dm.writePage p data).2.pages = dm.pages ∧ (dm.writePage p data).2.freeSlots = dm.freeSlots

/-- A write, done or failed, is no write to the slot of another page. -/
def SparesOthers (_ : List DiskCall) (c : DiskCall) (dm : DiskManager) : Prop :=
  ∀ p data, c = .write p data → ∀ q page, q ≠ p → dm.contents q = some page →
    (dm.writePage p data).2.contents q = some page

/-- No two pages are mapped to one offset. -/
def DistinctOffsets (_ : List DiskCall) (dm : DiskManager) : Prop :=
  ∀ p q o, dm.pages.lookup p = some o → dm.pages.lookup q = some o → p = q

/-- The call is not a read of an unmapped page. -/
def ReadsMapped (_ : List DiskCall) (c : DiskCall) (dm : DiskManager) : Prop :=
  ∀ p buf, c = .read p buf → dm.pages.lookup p ≠ none

/-- A write that takes a slot off the free list can seek and write. -/
def SlotWriteLands (_ : List DiskCall) (c : DiskCall) (dm : DiskManager) : Prop :=
  ∀ p data, c = .write p data → dm.pages.lookup p = none → dm.freeSlots ≠ [] →
    dm.dbFile.fault dm.dbFile.ops = none ∧ dm.dbFile.fault (dm.dbFile.ops + 1) = none

instance (hist : List DiskCall) : ∀ (c : DiskCall) (dm : DiskManager),
    Decidable (ReadsMapped hist c dm)
  | .read p buf, dm => decidable_of_iff (dm.pages.lookup p ≠ none) (by simp [ReadsMapped])
  | .write p data, dm => isTrue (by simp [ReadsMapped])
  | .delete p, dm => isTrue (by simp [ReadsMapped])

instance (hist : List DiskCall) : ∀ (c : DiskCall) (dm : DiskManager),
    Decidable (SlotWriteLands hist c dm)
  | .write p data, dm => decidable_of_iff (dm.pages.lookup p = none → dm.freeSlots ≠ [] →
      dm.dbFile.fault dm.dbFile.ops = none ∧ dm.dbFile.fault (dm.dbFile.ops + 1) = none)
      (by simp [SlotWriteLands])
  | .read p buf, dm => isTrue (by simp [SlotWriteLands])
  | .delete p, dm => isTrue (by simp [SlotWriteLands])

/-- **When a failed write loses a slot**, in any state at all. -/
theorem losesNoSlot_iff (hist : List DiskCall) (c : DiskCall) (dm : DiskManager) :
    LosesNoSlot hist c dm ↔ SlotWriteLands hist c dm := by
  constructor
  · intro h p data hc hlook hfree
    obtain ⟨o, rest, hslots⟩ := List.exists_cons_of_ne_nil hfree
    have hslot := slotFor_free hlook hslots
    by_contra hland
    have hfails : dm.FailsBeforeMapping p := by
      simp only [FailsBeforeMapping, hslot]
      exact not_and_or.mp hland
    obtain ⟨-, hlost⟩ := h p data hc hfails
    obtain ⟨dbFile, -, ⟨-, heq⟩ | ⟨hmapped, -⟩⟩ := writePage_cases data hslot
    · simp [heq, hslots] at hlost
    · exact hmapped hfails
  · intro h p data hc hfails
    obtain ⟨o, dm₁, hslot⟩ : ∃ o dm₁, dm.slotFor p = (o, dm₁) := ⟨_, _, rfl⟩
    obtain ⟨dbFile, -, ⟨-, heq⟩ | ⟨hmapped, -⟩⟩ := writePage_cases data hslot
    · rw [heq]
      rcases slotFor_cases hslot with ⟨-, rfl⟩ | ⟨hlook, rest, hfree, rfl⟩ | ⟨-, -, -, hgrow⟩
      · exact ⟨rfl, rfl⟩
      · -- the slot is off the list already when the file fails
        obtain ⟨hseek, hwrite⟩ := h p data hc hlook (by simp [hfree])
        simp [FailsBeforeMapping, slotFor_free hlook hfree, hseek, hwrite] at hfails
      · rcases hgrow with ⟨-, rfl⟩ | ⟨-, rfl⟩
        · exact ⟨rfl, rfl⟩
        · exact ⟨rfl, rfl⟩
    · exact absurd hfails hmapped

/-- The invariant of the allocator. It does not say that the file is as long
as the capacity, which a `set_len` that fails would break. -/
structure KeepsSlots (dm : DiskManager) : Prop where
  packed : dm.Packed
  roomy : dm.Roomy
  inFile : ∀ q o, dm.pages.lookup q = some o → o + pageSize ≤ dm.dbFile.len

theorem KeepsSlots.slotFor (h : dm.KeepsSlots) (hslot : dm.slotFor p = (o, dm₁)) {q : PageId}
    {x : ℕ} (hq : dm.pages.lookup q = some x) :
    x + pageSize ≤ dm₁.dbFile.len ∧ dm₁.dbFile.pageAt x = dm.dbFile.pageAt x := by
  have hin := h.inFile q x hq
  obtain ⟨hcap, -, hbyte, hlen⟩ := slotFor_file hslot
  constructor
  · obtain ⟨k, hk, rfl⟩ := h.roomy.offsets x (Or.inl ⟨q, hq⟩)
    rcases hlen with hlen | ⟨hlen, -⟩
    · rw [hlen]
      simp only [pageSize]
      omega
    · rw [hlen]
      exact hin
  · exact DbFile.pageAt_congr fun i hi => hbyte (x + i) (by omega)

/-- What another page finds in the file after a write to the slot. -/
theorem KeepsSlots.written (h : dm.KeepsSlots) (hslot : dm.slotFor p = (o, dm₁))
    {dbFile : DbFile} (hwrite : dm₁.dbFile.WrittenAt dbFile o) {q : PageId} {x : ℕ}
    (hne : q ≠ p) (hq : dm.pages.lookup q = some x) :
    dbFile.pageAt x = dm.dbFile.pageAt x := by
  obtain ⟨hin, hpage⟩ := h.slotFor hslot hq
  obtain ⟨-, hown, -, ⟨k, -, rfl⟩, -⟩ := h.packed.slotFor hslot
  obtain ⟨j, -, rfl⟩ := h.roomy.offsets x (Or.inl ⟨q, hq⟩)
  have hoff : j * pageSize ≠ k * pageSize := fun heq => hne (hown q (heq ▸ hq))
  exact (hwrite.pageAt hin (slots_disjoint hoff)).trans hpage

theorem KeepsSlots.sparesOthers (h : dm.KeepsSlots) (hist : List DiskCall) (c : DiskCall) :
    SparesOthers hist c dm := by
  intro p data hc q page hne hq
  obtain ⟨o, dm₁, hslot⟩ : ∃ o dm₁, dm.slotFor p = (o, dm₁) := ⟨_, _, rfl⟩
  have hpages : dm₁.pages = dm.pages := by rw [← slotFor_pages dm p, hslot]
  obtain ⟨x, hx, hpage⟩ := contents_eq_some.mp hq
  apply contents_eq_some.mpr
  obtain ⟨dbFile, hwrite, ⟨-, heq⟩ | ⟨-, -, heq⟩⟩ := writePage_cases data hslot
  · refine ⟨x, ?_, ?_⟩
    · rw [heq, hpages]
      exact hx
    · rw [heq]
      exact (h.written hslot hwrite hne hx).trans hpage
  · refine ⟨x, ?_, ?_⟩
    · rw [heq, hpages, HashMap.lookup_insert_eq, if_neg hne]
      exact hx
    · rw [heq]
      exact (h.written hslot hwrite hne hx).trans hpage

theorem KeepsSlots.writePage (h : dm.KeepsSlots) {hist : List DiskCall} {data : Page}
    (hland : SlotWriteLands hist (.write p data) dm) : (dm.writePage p data).2.KeepsSlots := by
  obtain ⟨o, dm₁, hslot⟩ : ∃ o dm₁, dm.slotFor p = (o, dm₁) := ⟨_, _, rfl⟩
  have hpages : dm₁.pages = dm.pages := by rw [← slotFor_pages dm p, hslot]
  have hloses := (losesNoSlot_iff hist (.write p data) dm).mpr hland p data rfl
  obtain ⟨hroomy₁, -, -⟩ := h.roomy.slotFor hslot
  obtain ⟨dbFile, hwrite, ⟨hfails, heq⟩ | ⟨-, hin, heq⟩⟩ := writePage_cases data hslot
  · obtain ⟨-, hfree⟩ := hloses hfails
    rw [heq] at hfree ⊢
    refine ⟨h.packed.congr hpages hfree, hroomy₁.congr rfl (List.Sublist.refl _) le_rfl, ?_⟩
    intro q x hq
    rw [hpages] at hq
    exact (h.slotFor hslot hq).1.trans hwrite.le_len
  · rw [heq]
    refine ⟨h.packed.mapped hslot dbFile, h.roomy.mapped hslot dbFile, ?_⟩
    intro q x hq
    rw [hpages, HashMap.lookup_insert_eq] at hq
    split at hq
    · obtain rfl := Option.some.inj hq
      exact hin
    · exact (h.slotFor hslot hq).1.trans hwrite.le_len

/-- **One call keeps the allocator intact**, unless it is a write that takes a
slot off the free list and fails. -/
theorem call_keepsSlots (hist : List DiskCall) (c : DiskCall) (dm dm' : DiskManager)
    (h : dm.KeepsSlots) (hc : ReadsMapped hist c dm ∧ SlotWriteLands hist c dm)
    (hcall : call c dm = some dm') : dm'.KeepsSlots := by
  obtain ⟨hread, hland⟩ := hc
  cases c with
  | write p data =>
      obtain rfl := Option.some.inj hcall
      exact h.writePage hland
  | read p buf =>
      obtain ⟨o, hlook⟩ := Option.ne_none_iff_exists'.mp (hread p buf rfl)
      obtain ⟨reply, dbFile, heq, pos, ops, rfl⟩ :=
        readPage_inside buf (slotFor_mapped hlook) (h.inFile p o hlook)
      obtain rfl : _ = dm' := by simpa [call, heq] using hcall
      exact ⟨h.packed.congr rfl rfl, h.roomy.congr rfl (List.Sublist.refl _) le_rfl, h.inFile⟩
  | delete p =>
      obtain ⟨freeSlots, heq⟩ := dm.deletePage_eq p
      obtain rfl := Option.some.inj hcall
      refine ⟨h.packed.deletePage p, h.roomy.deletePage p, fun q x hq => ?_⟩
      rw [heq] at hq ⊢
      exact h.inFile q x (HashMap.lookup_erase_eq_some.mp hq).2

/-- A new manager has nothing mapped and no free slot, whatever `set_len` said. -/
theorem new_eq_ok {dbFile : DbFile} (h : DiskManager.new dbFile = .ok dm) :
    dm.pageCapacity = dbIoSize ∧ dm.pages = ∅ ∧ dm.freeSlots = [] := by
  simp only [DiskManager.new] at h
  split at h
  · simp at h
  split at h
  · simp at h
  · obtain rfl := Except.ok.inj h
    exact ⟨rfl, rfl, rfl⟩

theorem new_keepsSlots {dbFile : DbFile} (h : DiskManager.new dbFile = .ok dm) :
    dm.KeepsSlots := by
  obtain ⟨hcap, hpages, hfree⟩ := new_eq_ok h
  have hlook : ∀ q, dm.pages.lookup q = none := by
    intro q
    rw [hpages]
    exact AList.lookup_empty q
  have huses : ∀ o, ¬dm.UsesOffset o := by
    rintro o (⟨q, hq⟩ | ho)
    · simp [hlook] at hq
    · simp [hfree] at ho
  have hslots : dm.slots = 0 := by
    rw [slots, hpages, hfree]
    rfl
  refine ⟨⟨⟨?_, ?_, ?_⟩, fun o ho => absurd ho (huses o)⟩,
    ⟨?_, fun o ho => absurd ho (huses o)⟩, ?_⟩
  · intro q r o hq
    simp [hlook] at hq
  · intro q o hq
    simp [hlook] at hq
  · simp [hfree]
  · rw [hslots, hcap]
    decide
  · intro q o hq
    simp [hlook] at hq

/-- **Failed writes leave the allocator intact** in a run exactly if none of
them has taken a slot off the free list. -/
theorem slotsIntact_iff (dbFile : DbFile) (dm : DiskManager)
    (hnew : DiskManager.new dbFile = .ok dm) (calls : List DiskCall)
    (hreads : Along call ReadsMapped [] calls dm) :
    Before call (fun hist c dm => LosesNoSlot hist c dm ∧ SparesOthers hist c dm) [] calls dm ∧
        Throughout call DistinctOffsets [] calls dm ↔
      Before call SlotWriteLands [] calls dm := by
  constructor
  · rintro ⟨hloses, -⟩
    exact hloses.mono fun hist c dm h => (losesNoSlot_iff hist c dm).mp h.1
  · intro hland
    have hkeeps : Throughout call (fun _ dm => dm.KeepsSlots) [] calls dm :=
      throughout_of_along call_keepsSlots (new_keepsSlots hnew) (hreads.and hland.along)
    refine ⟨hkeeps.before (fun hist c dm h _ hc => ?_) hland,
      hkeeps.mono fun _ dm h => h.packed.injective⟩
    exact ⟨(losesNoSlot_iff hist c dm).mpr hc, h.sparesOthers hist c⟩

/-- A file that stores 100 bytes of the second page written to it. -/
def tornFile : DbFile := { blankFile with fault := fun k => if k = 6 then some 100 else none }

/-- Page 2 is torn and written again; page 3 takes the slot of page 1. -/
def tornCalls : List DiskCall :=
  [.write 1 (.ofFn pageSize fun _ => 1), .write 2 (.ofFn pageSize fun _ => 2),
    .write 2 (.ofFn pageSize fun _ => 2), .delete 1, .write 3 (.ofFn pageSize fun _ => 3),
    .read 2 (.zero _)]

/-- The write that fails has taken no slot off the free list. -/
theorem slotsIntact_iff_torn :
    (run call tornCalls (fresh tornFile)).isSome = true ∧
      Before call (fun hist c dm => LosesNoSlot hist c dm ∧ SparesOthers hist c dm) []
        tornCalls (fresh tornFile) ∧
      Throughout call DistinctOffsets [] tornCalls (fresh tornFile) :=
  ⟨by decide +kernel, (slotsIntact_iff tornFile _ rfl tornCalls (by decide +kernel)).mpr
    (by decide +kernel)⟩

/-- A file whose operation number 8 fails. -/
def failingSeek : DbFile :=
  { blankFile with fault := fun k => if k = 8 then some 0 else none }

/-- The first write of page 3 cannot seek and loses the slot of page 1; the
second lands on the slot of page 2. -/
def lostSlot : List DiskCall :=
  [.write 1 (.zero _), .write 2 (.zero _), .delete 1, .write 3 (.zero _), .write 3 (.zero _)]

theorem lostSlot_aliases :
    DiskManager.new failingSeek = .ok (fresh failingSeek) ∧
      Along call ReadsMapped [] lostSlot (fresh failingSeek) ∧
      ¬(Before call (fun hist c dm => LosesNoSlot hist c dm ∧ SparesOthers hist c dm) []
          lostSlot (fresh failingSeek) ∧
        Throughout call DistinctOffsets [] lostSlot (fresh failingSeek)) := by
  refine ⟨rfl, .of_forall ?_, ?_⟩
  · intro c hc hist dm p buf hread
    simp [lostSlot, hread] at hc
  · rintro ⟨-, hdistinct⟩
    have hrun : (run call lostSlot (fresh failingSeek)).map
        (fun dm => (dm.pages.lookup 2, dm.pages.lookup 3)) =
        some (some pageSize, some pageSize) := by
      decide +kernel
    obtain ⟨dm, hdm, hlook⟩ := Option.map_eq_some_iff.mp hrun
    obtain ⟨h₂, h₃⟩ := Prod.mk.inj hlook
    have h23 := hdistinct.last hdm 2 3 pageSize h₂ h₃
    exact absurd h23 (by decide)

end DiskManager

end StorageEngine
