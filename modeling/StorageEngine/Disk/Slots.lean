import StorageEngine.Lib.Runs
import StorageEngine.Disk.Manager

/-!
What the disk manager keeps true of its slots.

`Sized` is about the file: every offset is a page of it, and the mapped
pages and free slots together are fewer than the capacity. It holds whatever
is called. `Packed` is about aliasing: the mapped and the free offsets are
pairwise distinct *and fill a prefix of the file*, which is what makes
`pages.len() * PAGE_SIZE` a fresh offset. It is not kept by a read of an
unmapped page that takes a slot off the free list, and by every other call.
-/

namespace StorageEngine

open Lib

namespace DiskManager

/-- The bytes `read_page` is expected to return. -/
def contents (dm : DiskManager) (pageId : PageId) : Option Page :=
  (dm.pages.lookup pageId).map dm.dbFile.pageAt

/-- Mapped and free slots. -/
def slots (dm : DiskManager) : ℕ := HashMap.len dm.pages + dm.freeSlots.length

/-- The offset is that of a mapped page or is on the free list. -/
def UsesOffset (dm : DiskManager) (offset : ℕ) : Prop :=
  (∃ pageId, dm.pages.lookup pageId = some offset) ∨ offset ∈ dm.freeSlots

/-- All file operations succeed, and the file has room for every slot. -/
structure Sized (dm : DiskManager) : Prop where
  noFaults : dm.dbFile.NoFaults
  len : dm.dbFile.len = (dm.pageCapacity + 1) * pageSize
  room : dm.slots < dm.pageCapacity
  offsets : ∀ o, dm.UsesOffset o → ∃ k < dm.pageCapacity, o = k * pageSize

/-- The part of `Sized` that is about the slots alone. -/
structure Roomy (dm : DiskManager) : Prop where
  room : dm.slots < dm.pageCapacity
  offsets : ∀ o, dm.UsesOffset o → ∃ k < dm.pageCapacity, o = k * pageSize

/-- No two pages share a slot, and no page uses a free one. -/
structure Separated (dm : DiskManager) : Prop where
  injective : ∀ p q o, dm.pages.lookup p = some o → dm.pages.lookup q = some o → p = q
  disjoint : ∀ p o, dm.pages.lookup p = some o → o ∉ dm.freeSlots
  nodup : dm.freeSlots.Nodup

/-- Separated slots that fill a prefix of the file. -/
structure Packed (dm : DiskManager) : Prop extends Separated dm where
  filled : ∀ o, dm.UsesOffset o → ∃ k < dm.slots, o = k * pageSize

theorem contents_eq_some {dm : DiskManager} {p : PageId} {page : Page} :
    dm.contents p = some page ↔
      ∃ o, dm.pages.lookup p = some o ∧ dm.dbFile.pageAt o = page := by
  simp [contents]

/-- Where two slots differ, their pages do not overlap. -/
theorem slots_disjoint {j k : ℕ} (h : j * pageSize ≠ k * pageSize) :
    j * pageSize + pageSize ≤ k * pageSize ∨ k * pageSize + pageSize ≤ j * pageSize := by
  simp only [pageSize] at *
  omega

theorem Sized.offset_add_le {dm : DiskManager} (h : dm.Sized) {o : ℕ}
    (ho : dm.UsesOffset o) : o + pageSize ≤ dm.dbFile.len := by
  obtain ⟨k, hk, rfl⟩ := h.offsets o ho
  rw [h.len]
  simp only [pageSize]
  omega

/-! ### The slot of a page -/

theorem slotFor_mapped {dm : DiskManager} {p : PageId} {o : ℕ}
    (h : dm.pages.lookup p = some o) : dm.slotFor p = (o, dm) := by
  simp [slotFor, h]

theorem slotFor_free {dm : DiskManager} {p : PageId} {o : ℕ} {rest : List ℕ}
    (h : dm.pages.lookup p = none) (hfree : dm.freeSlots = o :: rest) :
    dm.slotFor p = (o, { dm with freeSlots := rest }) := by
  simp [slotFor, h, hfree]

theorem slotFor_pages (dm : DiskManager) (p : PageId) : (dm.slotFor p).2.pages = dm.pages := by
  rw [slotFor]
  split
  · rfl
  split
  · rfl
  · simp only
    split
    · rfl
    · rfl

/-- The call needs a fresh offset for the page, and doubles the capacity. -/
def Grows (dm : DiskManager) (pageId : PageId) : Prop :=
  dm.pages.lookup pageId = none ∧ dm.freeSlots = [] ∧ dm.pageCapacity ≤ HashMap.len dm.pages + 1

/-- The places the slot of a page comes from. -/
theorem slotFor_cases {dm dm₁ : DiskManager} {p : PageId} {o : ℕ} (h : dm.slotFor p = (o, dm₁)) :
    dm.pages.lookup p = some o ∧ dm₁ = dm ∨
    dm.pages.lookup p = none ∧ (∃ rest, dm.freeSlots = o :: rest ∧
      dm₁ = { dm with freeSlots := rest }) ∨
    dm.pages.lookup p = none ∧ dm.freeSlots = [] ∧ o = HashMap.len dm.pages * pageSize ∧
      (dm.Grows p ∧ dm₁ = dm.grow ∨ HashMap.len dm.pages + 1 < dm.pageCapacity ∧ dm₁ = dm) := by
  rw [slotFor] at h
  split at h
  · next o' hlook =>
      obtain ⟨rfl, rfl⟩ := Prod.mk.inj h
      exact Or.inl ⟨hlook, rfl⟩
  next hlook =>
  refine Or.inr ?_
  split at h
  · next o' rest hfree =>
      obtain ⟨rfl, rfl⟩ := Prod.mk.inj h
      exact Or.inl ⟨hlook, rest, hfree, rfl⟩
  next hfree =>
  refine Or.inr ⟨hlook, hfree, ?_⟩
  simp only at h
  split at h
  · next hcap =>
      obtain ⟨rfl, rfl⟩ := Prod.mk.inj h
      exact ⟨rfl, Or.inl ⟨⟨hlook, hfree, hcap⟩, rfl⟩⟩
  · next hcap =>
      obtain ⟨rfl, rfl⟩ := Prod.mk.inj h
      exact ⟨rfl, Or.inr ⟨not_le.mp hcap, rfl⟩⟩

/-! ### The slots, whatever the file does -/

section Slots

variable {dm dm₁ dm' : DiskManager} {p : PageId} {o : ℕ}

theorem Sized.roomy (h : dm.Sized) : dm.Roomy := ⟨h.room, h.offsets⟩

theorem Roomy.congr (h : dm.Roomy) (hpages : dm'.pages = dm.pages)
    (hfree : dm'.freeSlots.Sublist dm.freeSlots) (hcap : dm.pageCapacity ≤ dm'.pageCapacity) :
    dm'.Roomy := by
  have hroom := h.room
  have hlen := hfree.length_le
  refine ⟨?_, ?_⟩
  · simp only [slots, hpages] at hroom ⊢
    omega
  · intro x hx
    have hx' : dm.UsesOffset x := by
      rcases hx with ⟨q, hq⟩ | hx
      · exact Or.inl ⟨q, hpages ▸ hq⟩
      · exact Or.inr (hfree.subset hx)
    obtain ⟨k, hk, rfl⟩ := h.offsets x hx'
    exact ⟨k, hk.trans_le hcap, rfl⟩

/-- The slot handed out is a page below the capacity, which has room for it. -/
theorem Roomy.slotFor (h : dm.Roomy) (hslot : dm.slotFor p = (o, dm₁)) :
    dm₁.Roomy ∧ (∃ k < dm₁.pageCapacity, o = k * pageSize) ∧
      HashMap.len (dm.pages.insert p o) + dm₁.freeSlots.length < dm₁.pageCapacity := by
  have hroom := h.room
  rcases slotFor_cases hslot with ⟨hlook, rfl⟩ | ⟨hlook, rest, hfree, rfl⟩ |
    ⟨hlook, hfree, rfl, hgrow⟩
  · refine ⟨h, h.offsets o (Or.inl ⟨p, hlook⟩), ?_⟩
    rw [HashMap.len_insert_of_lookup_eq_some o hlook]
    exact hroom
  · have hinsert := HashMap.len_insert_of_lookup_eq_none o hlook
    refine ⟨h.congr rfl ?_ le_rfl, h.offsets o (Or.inr (by simp [hfree])), ?_⟩
    · rw [hfree]
      exact List.sublist_cons_self o rest
    · simp only [slots, hfree, List.length_cons] at hroom
      simp only [hinsert]
      omega
  · have hinsert := HashMap.len_insert_of_lookup_eq_none (HashMap.len dm.pages * pageSize) hlook
    simp only [slots, hfree, List.length_nil] at hroom
    rcases hgrow with ⟨-, rfl⟩ | ⟨hlt, rfl⟩
    · have hcap : dm.grow.pageCapacity = dm.pageCapacity * 2 := rfl
      refine ⟨h.congr rfl (List.Sublist.refl _) (by omega), ⟨_, by omega, rfl⟩, ?_⟩
      simp only [hinsert, grow, hfree, List.length_nil]
      omega
    · refine ⟨h, ⟨_, by omega, rfl⟩, ?_⟩
      simp only [hinsert, hfree, List.length_nil]
      omega

/-- The page mapped to the slot it was given. -/
theorem Roomy.mapped (h : dm.Roomy) (hslot : dm.slotFor p = (o, dm₁)) (dbFile : DbFile) :
    Roomy { dm₁ with dbFile, pages := dm₁.pages.insert p o } := by
  obtain ⟨h₁, hfits, hroom⟩ := h.slotFor hslot
  have hpages : dm₁.pages = dm.pages := by rw [← slotFor_pages dm p, hslot]
  rw [← hpages] at hroom
  refine ⟨hroom, ?_⟩
  rintro x (⟨q, hq⟩ | hx)
  · have hq : (dm₁.pages.insert p o).lookup q = some x := hq
    rw [HashMap.lookup_insert_eq] at hq
    split at hq
    · obtain rfl := Option.some.inj hq
      exact hfits
    · exact h₁.offsets x (Or.inl ⟨q, hq⟩)
  · exact h₁.offsets x (Or.inr hx)

theorem Roomy.deletePage (h : dm.Roomy) (p : PageId) : (dm.deletePage p).2.Roomy := by
  cases hlook : dm.pages.lookup p with
  | none =>
      simp only [DiskManager.deletePage, hlook]
      exact h
  | some o =>
      have hlen := HashMap.len_erase_of_lookup_eq_some hlook
      have hroom := h.room
      simp only [DiskManager.deletePage, hlook]
      refine ⟨?_, ?_⟩
      · simp only [slots, List.length_cons] at hroom ⊢
        omega
      · rintro x (⟨q, hq⟩ | hx)
        · exact h.offsets x (Or.inl ⟨q, (HashMap.lookup_erase_eq_some.mp hq).2⟩)
        · rcases List.mem_cons.mp hx with rfl | hx
          · exact h.offsets x (Or.inl ⟨p, hlook⟩)
          · exact h.offsets x (Or.inr hx)

/-- What a packed disk hands out: an offset that is the page's own, on no
free list any more, and within the prefix that is used once the page is
mapped to it. -/
theorem Packed.slotFor (h : dm.Packed) (hslot : dm.slotFor p = (o, dm₁)) :
    dm₁.freeSlots.Sublist dm.freeSlots ∧ (∀ q, dm.pages.lookup q = some o → q = p) ∧
      o ∉ dm₁.freeSlots ∧
      (∃ k < HashMap.len (dm.pages.insert p o) + dm₁.freeSlots.length, o = k * pageSize) ∧
      dm.slots ≤ HashMap.len (dm.pages.insert p o) + dm₁.freeSlots.length := by
  rcases slotFor_cases hslot with ⟨hlook, rfl⟩ | ⟨hlook, rest, hfree, rfl⟩ |
    ⟨hlook, hfree, rfl, hgrow⟩
  · have hinsert := HashMap.len_insert_of_lookup_eq_some o hlook
    rw [hinsert]
    exact ⟨List.Sublist.refl _, fun q hq => h.injective q p o hq hlook, h.disjoint p o hlook,
      h.filled o (Or.inl ⟨p, hlook⟩), le_rfl⟩
  · have hinsert := HashMap.len_insert_of_lookup_eq_none o hlook
    have hnodup : o ∉ rest ∧ rest.Nodup := by simpa [hfree] using h.nodup
    have hmem : o ∈ dm.freeSlots := by simp [hfree]
    have hslots : dm.slots = HashMap.len dm.pages + 1 + rest.length := by
      simp only [slots, hfree, List.length_cons]
      omega
    rw [hinsert, ← hslots]
    refine ⟨?_, ?_, hnodup.1, h.filled o (Or.inr hmem), le_rfl⟩
    · rw [hfree]
      exact List.sublist_cons_self o rest
    · intro q hq
      exact absurd hmem (h.disjoint q o hq)
  · have hinsert := HashMap.len_insert_of_lookup_eq_none (HashMap.len dm.pages * pageSize) hlook
    have hfree₁ : dm₁.freeSlots = [] := by
      rcases hgrow with ⟨-, rfl⟩ | ⟨-, rfl⟩
      · exact hfree
      · exact hfree
    have hslots : dm.slots = HashMap.len dm.pages := by simp [slots, hfree]
    rw [hinsert, hfree₁, hfree, hslots]
    refine ⟨List.Sublist.refl _, ?_, by simp, ⟨_, by simp, rfl⟩, by simp⟩
    -- every mapped offset lies below the number of mapped pages: this one is new
    intro q hq
    obtain ⟨k, hk, heq⟩ := h.filled _ (Or.inl ⟨q, hq⟩)
    simp only [pageSize] at heq
    omega

theorem Packed.congr (h : dm.Packed) (hpages : dm'.pages = dm.pages)
    (hfree : dm'.freeSlots = dm.freeSlots) : dm'.Packed := by
  refine ⟨⟨?_, ?_, ?_⟩, ?_⟩
  · simpa only [hpages] using h.injective
  · simpa only [hpages, hfree] using h.disjoint
  · simpa only [hfree] using h.nodup
  · simpa only [UsesOffset, slots, hpages, hfree] using h.filled

/-- The page mapped to the slot it was given. -/
theorem Packed.mapped (h : dm.Packed) (hslot : dm.slotFor p = (o, dm₁)) (dbFile : DbFile) :
    Packed { dm₁ with dbFile, pages := dm₁.pages.insert p o } := by
  obtain ⟨hfree, hown, hnotFree, hfits, hslots⟩ := h.slotFor hslot
  have hpages : dm₁.pages = dm.pages := by rw [← slotFor_pages dm p, hslot]
  have hlookup : ∀ q x, (dm₁.pages.insert p o).lookup q = some x →
      q = p ∧ x = o ∨ dm.pages.lookup q = some x := by
    intro q x hq
    rw [hpages, HashMap.lookup_insert_eq] at hq
    split at hq
    · next h => exact Or.inl ⟨h, by simpa using hq.symm⟩
    · exact Or.inr hq
  rw [← hpages] at hfits hslots
  refine ⟨⟨?_, ?_, h.nodup.sublist hfree⟩, ?_⟩
  · intro q r x hq hr
    rcases hlookup q x hq with ⟨hqp, hqx⟩ | hq' <;> rcases hlookup r x hr with ⟨hrp, hrx⟩ | hr'
    · rw [hqp, hrp]
    · rw [hqp, hown r (hqx ▸ hr')]
    · rw [hrp, hown q (hrx ▸ hq')]
    · exact h.injective q r x hq' hr'
  · intro q x hq
    rcases hlookup q x hq with ⟨-, rfl⟩ | hq
    · exact hnotFree
    · exact fun hx => h.disjoint q x hq (hfree.subset hx)
  · have hold : ∀ x, dm.UsesOffset x → ∃ k < HashMap.len (dm₁.pages.insert p o) +
        dm₁.freeSlots.length, x = k * pageSize := by
      intro x hx
      obtain ⟨k, hk, rfl⟩ := h.filled x hx
      exact ⟨k, hk.trans_le hslots, rfl⟩
    rintro x (⟨q, hq⟩ | hx)
    · rcases hlookup q x hq with ⟨-, rfl⟩ | hq
      · exact hfits
      · exact hold x (Or.inl ⟨q, hq⟩)
    · exact hold x (Or.inr (hfree.subset hx))

theorem Packed.deletePage (h : dm.Packed) (p : PageId) : (dm.deletePage p).2.Packed := by
  cases hlook : dm.pages.lookup p with
  | none =>
      simp only [DiskManager.deletePage, hlook]
      exact h
  | some o =>
      have hlen := HashMap.len_erase_of_lookup_eq_some hlook
      simp only [DiskManager.deletePage, hlook]
      refine ⟨⟨?_, ?_, List.nodup_cons.mpr ⟨h.disjoint p o hlook, h.nodup⟩⟩, ?_⟩
      · intro q r x hq hr
        exact h.injective q r x (HashMap.lookup_erase_eq_some.mp hq).2
          (HashMap.lookup_erase_eq_some.mp hr).2
      · intro q x hq
        obtain ⟨hqp, hq⟩ := HashMap.lookup_erase_eq_some.mp hq
        simp only [List.mem_cons, not_or]
        exact ⟨fun hx => hqp (h.injective q p o (hx ▸ hq) hlook), h.disjoint q x hq⟩
      · have hslots : slots { dm with
            pages := dm.pages.erase p, freeSlots := o :: dm.freeSlots } = dm.slots := by
          simp only [slots, List.length_cons]
          omega
        intro x hx
        rw [hslots]
        apply h.filled
        rcases hx with ⟨q, hq⟩ | hx
        · exact Or.inl ⟨q, (HashMap.lookup_erase_eq_some.mp hq).2⟩
        · rcases List.mem_cons.mp hx with rfl | hx
          · exact Or.inl ⟨p, hlook⟩
          · exact Or.inr hx

end Slots

/-! ### The file a slot is taken in -/

section File

variable {dm dm₁ : DiskManager} {p : PageId} {o : ℕ}

/-- Whether or not the file is grown, what it had stays where it was. -/
theorem slotFor_file (hslot : dm.slotFor p = (o, dm₁)) :
    dm.pageCapacity ≤ dm₁.pageCapacity ∧ dm₁.dbFile.fault = dm.dbFile.fault ∧
      (∀ i < dm.dbFile.len, dm₁.dbFile.byte i = dm.dbFile.byte i) ∧
      (dm₁.dbFile.len = (dm₁.pageCapacity + 1) * pageSize ∨ dm₁.dbFile.len = dm.dbFile.len ∧
        (dm₁.pageCapacity = dm.pageCapacity ∨
          dm.Grows p ∧ dm.dbFile.fault dm.dbFile.ops ≠ none)) := by
  rcases slotFor_cases hslot with ⟨-, rfl⟩ | ⟨-, rest, -, rfl⟩ | ⟨-, -, -, hgrow⟩
  · exact ⟨le_rfl, rfl, fun _ _ => rfl, Or.inr ⟨rfl, Or.inl rfl⟩⟩
  · exact ⟨le_rfl, rfl, fun _ _ => rfl, Or.inr ⟨rfl, Or.inl rfl⟩⟩
  rcases hgrow with ⟨hgrows, rfl⟩ | ⟨-, rfl⟩
  · have hcap : dm.pageCapacity ≤ dm.pageCapacity * 2 := by omega
    rw [grow]
    cases hfault : dm.dbFile.fault dm.dbFile.ops with
    | none =>
        rw [DbFile.setLen, hfault]
        exact ⟨hcap, rfl, fun i hi => if_pos hi, Or.inl rfl⟩
    | some w =>
        rw [DbFile.setLen, hfault]
        exact ⟨hcap, rfl, fun _ _ => rfl, Or.inr ⟨rfl, Or.inr ⟨hgrows, by simp⟩⟩⟩
  · exact ⟨le_rfl, rfl, fun _ _ => rfl, Or.inr ⟨rfl, Or.inl rfl⟩⟩

theorem Sized.slotFor (h : dm.Sized) (hslot : dm.slotFor p = (o, dm₁)) :
    dm₁.Sized ∧ dm.pageCapacity ≤ dm₁.pageCapacity ∧
      ∀ x, x + pageSize ≤ dm.dbFile.len → dm₁.dbFile.pageAt x = dm.dbFile.pageAt x := by
  obtain ⟨hroomy, -, -⟩ := h.roomy.slotFor hslot
  obtain ⟨hcap, hfault, hbyte, hlen⟩ := slotFor_file hslot
  have hf : dm₁.dbFile.NoFaults := fun n => by rw [hfault, h.noFaults n]
  refine ⟨⟨hf, ?_, hroomy.room, hroomy.offsets⟩, hcap, fun x hx => ?_⟩
  · rcases hlen with hlen | ⟨hlen, hcap' | ⟨-, hfails⟩⟩
    · exact hlen
    · rw [hlen, hcap', h.len]
    · exact absurd (h.noFaults _) hfails
  · exact DbFile.pageAt_congr fun i hi => hbyte (x + i) (by omega)

end File

/-! ### Writing and reading at a slot -/

/-- `write_page` once the slot is known. -/
theorem writePage_eq {dm dm₁ : DiskManager} {p : PageId} {o : ℕ} (data : Page)
    (hslot : dm.slotFor p = (o, dm₁)) (hf : dm₁.dbFile.NoFaults) :
    ∃ dbFile, dm.writePage p data =
        (.ok (), { dm₁ with dbFile, pages := dm₁.pages.insert p o }) ∧
      dbFile.NoFaults ∧ dbFile.len = max dm₁.dbFile.len (o + pageSize) ∧
      ∀ o', dbFile.pageAt o' = (dm₁.dbFile.store o data.toList).pageAt o' := by
  refine ⟨{ dm₁.dbFile.store o data.toList with
    pos := o + pageSize, ops := dm₁.dbFile.ops + 1 + 1 + 1 }, ?_, hf, ?_, fun _ => rfl⟩
  · have h₁ : ({ dm₁.dbFile with pos := o, ops := dm₁.dbFile.ops + 1 } : DbFile).NoFaults := hf
    have h₂ : ({ dm₁.dbFile.store o data.toList with
      pos := o + pageSize, ops := dm₁.dbFile.ops + 1 + 1 } : DbFile).NoFaults := hf
    simp only [writePage, hslot, DbFile.seek_ok hf, DbFile.writeAll_ok h₁]
    rw [DbFile.flush_ok]
    · rfl
    · exact h₂
  · simp [DbFile.store, data.length_toList]

/-- The manager after a page was read: only the cursor of the file moved. -/
def afterRead (dm : DiskManager) (pos : ℕ) : DiskManager :=
  { dm with dbFile := { dm.dbFile with pos, ops := dm.dbFile.ops + 1 + 1 + 1 } }

/-- `read_page` once the slot is known to be inside the file. -/
theorem readPage_eq {dm dm₁ : DiskManager} {p : PageId} {o : ℕ} (buf : Page)
    (hslot : dm.slotFor p = (o, dm₁)) (hf : dm₁.dbFile.NoFaults)
    (ho : o + pageSize ≤ dm₁.dbFile.len) :
    dm.readPage p buf =
      .ok (.ok (dm₁.dbFile.pageAt o), dm₁.afterRead (o + pageSize)) := by
  have h₁ : ({ dm₁.dbFile with ops := dm₁.dbFile.ops + 1 } : DbFile).NoFaults := hf
  have h₂ : ({ dm₁.dbFile with pos := o, ops := dm₁.dbFile.ops + 1 + 1 } : DbFile).NoFaults := hf
  have hle : ¬dm₁.dbFile.len < o := by omega
  simp only [readPage, hslot, DbFile.metadataLen_ok hf, hle, if_false, DbFile.seek_ok h₁]
  rw [DbFile.readExact_ok h₂ buf ho]
  rfl

/-! ### The slot a page is granted -/

/-- What `slotFor` hands out when the slots are packed: an offset inside the
file that is the page's own, and on no free list any more. -/
structure Grants (dm : DiskManager) (p : PageId) (o : ℕ) (dm₁ : DiskManager) : Prop where
  pages : dm₁.pages = dm.pages
  free : dm₁.freeSlots.Sublist dm.freeSlots
  noFaults : dm₁.dbFile.NoFaults
  len : dm₁.dbFile.len = (dm₁.pageCapacity + 1) * pageSize
  cap : dm.pageCapacity ≤ dm₁.pageCapacity
  keep : ∀ x, x + pageSize ≤ dm.dbFile.len → dm₁.dbFile.pageAt x = dm.dbFile.pageAt x
  own : ∀ q, dm.pages.lookup q = some o → q = p
  notFree : o ∉ dm₁.freeSlots
  fits : ∃ k < HashMap.len (dm.pages.insert p o) + dm₁.freeSlots.length, o = k * pageSize
  slots_le : dm.slots ≤ HashMap.len (dm.pages.insert p o) + dm₁.freeSlots.length
  room : HashMap.len (dm.pages.insert p o) + dm₁.freeSlots.length < dm₁.pageCapacity

theorem slotFor_grants {dm : DiskManager} (hs : dm.Sized) (hp : dm.Packed) (p : PageId) :
    ∃ o dm₁, dm.slotFor p = (o, dm₁) ∧ dm.Grants p o dm₁ := by
  obtain ⟨o, dm₁, hslot⟩ : ∃ o dm₁, dm.slotFor p = (o, dm₁) := ⟨_, _, rfl⟩
  have hpages : dm₁.pages = dm.pages := by rw [← slotFor_pages dm p, hslot]
  obtain ⟨hfree, hown, hnotFree, hfits, hslots⟩ := hp.slotFor hslot
  obtain ⟨-, -, hroom⟩ := hs.roomy.slotFor hslot
  obtain ⟨hs₁, hcap, hkeep⟩ := hs.slotFor hslot
  exact ⟨o, dm₁, hslot, hpages, hfree, hs₁.noFaults, hs₁.len, hcap, hkeep, hown, hnotFree, hfits,
    hslots, hroom⟩

theorem Grants.offset_add_le {dm dm₁ : DiskManager} {p : PageId} {o : ℕ}
    (hg : dm.Grants p o dm₁) : o + pageSize ≤ dm₁.dbFile.len := by
  obtain ⟨k, hk, rfl⟩ := hg.fits
  have hroom := hg.room
  rw [hg.len]
  simp only [pageSize]
  omega

theorem Grants.len_le {dm dm₁ : DiskManager} {p : PageId} {o : ℕ}
    (hg : dm.Grants p o dm₁) (hs : dm.Sized) : dm.dbFile.len ≤ dm₁.dbFile.len := by
  rw [hs.len, hg.len]
  exact Nat.mul_le_mul_right _ (Nat.succ_le_succ hg.cap)

/-! ### The calls, on slots that are packed -/

theorem contents_write {dm dm₁ : DiskManager} {p : PageId} {o : ℕ} {data : Page}
    {dbFile : DbFile} (hs : dm.Sized) (hg : dm.Grants p o dm₁)
    (hfile : ∀ x, dbFile.pageAt x = (dm₁.dbFile.store o data.toList).pageAt x) (q : PageId) :
    ({ dm₁ with dbFile, pages := dm₁.pages.insert p o } : DiskManager).contents q =
      if q = p then some data else dm.contents q := by
  simp only [contents, hg.pages, HashMap.lookup_insert_eq]
  by_cases hq : q = p
  · simp [hq, hfile, DbFile.pageAt_store_self]
  simp only [hq, if_false]
  cases hx : dm.pages.lookup q with
  | none => simp
  | some x =>
      have hmem : dm.UsesOffset x := Or.inl ⟨q, hx⟩
      have hin := hs.offset_add_le hmem
      have hne : x ≠ o := fun h => hq (hg.own q (h ▸ hx))
      have hin₁ := hin.trans (hg.len_le hs)
      obtain ⟨j, -, rfl⟩ := hs.offsets x hmem
      obtain ⟨k, -, rfl⟩ := hg.fits
      rw [Option.map_some, Option.map_some, hfile, ← hg.keep _ hin]
      exact congrArg some (DbFile.pageAt_store_ne data hin₁ (slots_disjoint hne))

/-- **`write_page`** maps the page to the bytes and leaves every other page
alone. -/
theorem writePage_spec {dm : DiskManager} (hs : dm.Sized) (hp : dm.Packed) (p : PageId)
    (data : Page) : ∃ dm', dm.writePage p data = (.ok (), dm') ∧ dm'.Sized ∧ dm'.Packed ∧
      ∀ q, dm'.contents q = if q = p then some data else dm.contents q := by
  obtain ⟨o, dm₁, hslot, hg⟩ := slotFor_grants hs hp p
  obtain ⟨dbFile, heq, hf, hlen, hfile⟩ := writePage_eq data hslot hg.noFaults
  rw [max_eq_left hg.offset_add_le] at hlen
  have hroomy := hs.roomy.mapped hslot dbFile
  exact ⟨_, heq, ⟨hf, hlen.trans hg.len, hroomy.room, hroomy.offsets⟩, hp.mapped hslot dbFile,
    contents_write hs hg hfile⟩

theorem afterRead_spec {dm : DiskManager} (hs : dm.Sized) (hp : dm.Packed) (pos : ℕ) :
    (dm.afterRead pos).Sized ∧ (dm.afterRead pos).Packed ∧
      ∀ q, (dm.afterRead pos).contents q = dm.contents q :=
  ⟨⟨hs.noFaults, hs.len, hs.room, hs.offsets⟩, ⟨⟨hp.injective, hp.disjoint, hp.nodup⟩,
    hp.filled⟩, fun _ => rfl⟩

/-- **`read_page`** of a mapped page returns its bytes. -/
theorem readPage_spec {dm : DiskManager} (hs : dm.Sized) (hp : dm.Packed) {p : PageId}
    {page : Page} (h : dm.contents p = some page) (buf : Page) :
    ∃ dm', dm.readPage p buf = .ok (.ok page, dm') ∧ dm'.Sized ∧ dm'.Packed ∧
      ∀ q, dm'.contents q = dm.contents q := by
  obtain ⟨o, hlook, hpage⟩ := contents_eq_some.mp h
  have hin := hs.offset_add_le (Or.inl ⟨p, hlook⟩)
  refine ⟨dm.afterRead (o + pageSize), ?_, afterRead_spec hs hp _⟩
  rw [readPage_eq buf (slotFor_mapped hlook) hs.noFaults hin, hpage]

/-- A read takes no slot when there is no free one. -/
theorem readPage_unmapped {dm : DiskManager} (hs : dm.Sized) (hp : dm.Packed)
    (hfree : dm.freeSlots = []) (p : PageId) (buf : Page) :
    ∃ page dm', dm.readPage p buf = .ok (.ok page, dm') ∧ dm'.Sized ∧ dm'.Packed ∧
      ∀ q, dm'.contents q = dm.contents q := by
  obtain ⟨o, dm₁, hslot, hg⟩ := slotFor_grants hs hp p
  obtain ⟨hs₁, -, -⟩ := hs.slotFor hslot
  have hfree₁ : dm₁.freeSlots = dm.freeSlots := by
    rw [hfree]
    exact List.sublist_nil.mp (hfree ▸ hg.free)
  have hcontents : ∀ q, dm₁.contents q = dm.contents q := by
    intro q
    rw [contents, contents, hg.pages]
    cases hq : dm.pages.lookup q with
    | none => simp
    | some x => simp [hg.keep x (hs.offset_add_le (Or.inl ⟨q, hq⟩))]
  obtain ⟨hs', hp', hc'⟩ := afterRead_spec hs₁ (hp.congr hg.pages hfree₁) (o + pageSize)
  exact ⟨_, _, readPage_eq buf hslot hg.noFaults hg.offset_add_le, hs', hp',
    fun q => (hc' q).trans (hcontents q)⟩

/-- What `delete_page` changes. -/
theorem deletePage_eq (dm : DiskManager) (p : PageId) :
    ∃ freeSlots, dm.deletePage p =
      (.ok (), { dm with pages := dm.pages.erase p, freeSlots }) := by
  cases hlook : dm.pages.lookup p with
  | none =>
      have herase : dm.pages.erase p = dm.pages := by
        apply AList.ext
        exact List.kerase_of_notMem_keys (AList.lookup_eq_none.mp hlook)
      exact ⟨dm.freeSlots, by simp only [deletePage, hlook, herase]⟩
  | some o => exact ⟨o :: dm.freeSlots, by simp only [deletePage, hlook]⟩

/-- **`delete_page`** unmaps the page and frees its slot. -/
theorem deletePage_spec {dm : DiskManager} (hs : dm.Sized) (hp : dm.Packed) (p : PageId) :
    ∃ dm', dm.deletePage p = (.ok (), dm') ∧ dm'.Sized ∧ dm'.Packed ∧
      ∀ q, dm'.contents q = if q = p then none else dm.contents q := by
  obtain ⟨freeSlots, heq⟩ := dm.deletePage_eq p
  have hroomy := hs.roomy.deletePage p
  have hpacked := hp.deletePage p
  rw [heq] at hroomy hpacked
  refine ⟨_, heq, ⟨hs.noFaults, hs.len, hroomy.room, hroomy.offsets⟩, hpacked, fun q => ?_⟩
  simp only [contents, HashMap.lookup_erase_eq]
  split <;> simp

end DiskManager

end StorageEngine
