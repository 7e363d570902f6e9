import StorageEngine.Disk.Service
import StorageEngine.Pool.Tracking

/-!
The pool as a cache of an abstract store.

`Coherent n σ L` relates a pool to a store `σ` of pages: a resident page has
its bytes in its frame, and a page of `L` that is not resident has them on
disk. Every building block of the calls keeps the relation, moving bytes
between a frame and the disk, or changes `σ` and `L` at the one page it is
about. A session that only asks for pages it created then sees in every
guard the bytes last written to its page.
-/

namespace StorageEngine

open Lib

namespace BufferPoolManager

/-- The pool holds the pages of `σ`, those of `L` on disk where they are not
resident. -/
structure Coherent (n : ℕ) (σ : PageId → Page) (L : PageId → Prop)
    (bpm : BufferPoolManager) : Prop where
  partition : bpm.Partition n
  sized : bpm.diskManager.Sized
  packed : bpm.diskManager.Packed
  resident : ∀ p f, bpm.pageTable.lookup p = some f → (bpm.frames f).data = σ p
  onDisk : ∀ p, L p → bpm.pageTable.lookup p = none →
    bpm.diskManager.contents p = some (σ p)

section Coherent

variable {B : Build} {order : HashOrder} {n : ℕ} {σ : PageId → Page} {L : PageId → Prop}
  {bpm bpm' : BufferPoolManager}

theorem new_coherent {dm : DiskManager} (hs : dm.Sized) (hp : dm.Packed) :
    (new n dm).Coherent n (fun _ => .zero pageSize) (fun _ => False) where
  partition := new_partition n dm
  sized := hs
  packed := hp
  resident := fun p f h => absurd h (by simp [new])
  onDisk := fun _ h => h.elim

theorem Coherent.congr (h : bpm.Coherent n σ L) (hpart : bpm'.Partition n)
    (hdisk : bpm'.diskManager = bpm.diskManager) (htable : bpm'.pageTable = bpm.pageTable)
    (hframes : ∀ f, (bpm'.frames f).data = (bpm.frames f).data) : bpm'.Coherent n σ L where
  partition := hpart
  sized := hdisk ▸ h.sized
  packed := hdisk ▸ h.packed
  resident := by
    intro p f hp
    rw [hframes]
    exact h.resident p f (htable ▸ hp)
  onDisk := by
    rw [hdisk, htable]
    exact h.onDisk

/-- A resident page may be written to disk any time. -/
theorem Coherent.writeBack (h : bpm.Coherent n σ L) {p : PageId} {f : FrameId}
    (hp : bpm.pageTable.lookup p = some f) :
    ∃ dm, bpm.diskManager.serve ⟨.write, p, (bpm.frames f).data⟩ =
        .ok (some (bpm.frames f).data, dm) ∧ dm.Sized ∧ dm.Packed ∧
      dm.contents p = some (σ p) ∧
      ∀ q, L q → bpm.pageTable.lookup q = none → dm.contents q = some (σ q) := by
  obtain ⟨dm, hserve, hs, hpk, hcont⟩ :=
    DiskManager.serve_write h.sized h.packed p (bpm.frames f).data
  refine ⟨dm, hserve, hs, hpk, ?_, fun q hq hnone => ?_⟩
  · rw [hcont, if_pos rfl, h.resident p f hp]
  · have hne : q ≠ p := by
      rintro rfl
      simp [hp] at hnone
    rw [hcont, if_neg hne]
    exact h.onDisk q hq hnone

theorem Coherent.pinned (h : bpm.Coherent n σ L) {p : PageId} {f : FrameId}
    {r : ArcReplacer} (hf : f < bpm.numFrames)
    (hr : bpm.arcReplacer.recordAccess B f p = .ok r) : (bpm.pinned f r).Coherent n σ L :=
  h.congr (h.partition.pinned hf hr) rfl rfl (update_field FrameHeader.data (by rfl))

theorem Coherent.dropGuard (h : bpm.Coherent n σ L) {g : Guard}
    (hdrop : bpm.dropGuard B g = .ok bpm') : bpm'.Coherent n σ L := by
  have hpart := h.partition.dropGuard hdrop
  have hdata : ∀ f, ((bpm.unpinned g.frameId).frames f).data = (bpm.frames f).data :=
    update_field FrameHeader.data (by rfl)
  rcases dropGuard_cases hdrop with ⟨-, rfl⟩ | ⟨-, r, -, rfl⟩
  · exact h.congr hpart rfl rfl hdata
  · exact h.congr hpart rfl rfl hdata

/-- A header replaced by one with the same bytes, and a resident page written
to disk. -/
theorem Coherent.flushed (h : bpm.Coherent n σ L) {p : PageId} {f : FrameId}
    {header : FrameHeader} {reply : Option Page} {dm : DiskManager}
    (hp : bpm.pageTable.lookup p = some f)
    (hserve : bpm.diskManager.serve ⟨.write, p, (bpm.frames f).data⟩ = .ok (reply, dm))
    (hpart : bpm'.Partition n) (hdisk : bpm'.diskManager = dm)
    (htable : bpm'.pageTable = bpm.pageTable)
    (hframes : bpm'.frames = Function.update bpm.frames f header)
    (hdata : header.data = (bpm.frames f).data) : bpm'.Coherent n σ L := by
  obtain ⟨dm', hserve', hs, hpk, -, hrest⟩ := h.writeBack hp
  obtain ⟨-, rfl⟩ := ok_pair_unique hserve hserve'
  refine ⟨hpart, hdisk ▸ hs, hdisk ▸ hpk, fun q x hq => ?_, fun q hL hq => ?_⟩
  · rw [htable] at hq
    rw [hframes, ← h.resident q x hq]
    exact update_field FrameHeader.data hdata x
  · rw [htable] at hq
    rw [hdisk]
    exact hrest q hL hq

theorem Coherent.flushGuard (h : bpm.Coherent n σ L) {g : Guard} {flushed : Bool}
    (hg : bpm.pageTable.lookup g.pageId = some g.frameId)
    (hflush : bpm.flushGuard g = .ok (flushed, bpm')) : bpm'.Coherent n σ L := by
  have hpart := h.partition.flushGuard hflush
  rcases flushGuard_cases hflush with ⟨-, -, rfl⟩ | ⟨-, -, reply, dm, hserve, rfl⟩
  · exact h
  · exact h.flushed hg hserve hpart rfl rfl rfl rfl

theorem Coherent.flushFrame (h : bpm.Coherent n σ L) {p : PageId} {f : FrameId}
    {flushed : Bool} (hp : bpm.pageTable.lookup p = some f)
    (hflush : bpm.flushFrame B p f = .ok (flushed, bpm')) : bpm'.Coherent n σ L := by
  have hpart := h.partition.flushFrame hflush
  obtain ⟨-, r, r', dm, -, -, hdisk, rfl⟩ := flushFrame_cases hflush
  rcases hdisk with ⟨-, -, rfl⟩ | ⟨-, -, reply, hserve⟩
  · exact h.congr hpart rfl rfl (update_field FrameHeader.data (by rfl))
  · exact h.flushed hp hserve hpart rfl rfl rfl rfl

theorem Coherent.dataMut (h : bpm.Coherent n σ L) (g : Guard) :
    (bpm.dataMut g).Coherent n σ L :=
  h.congr (h.partition.congr rfl rfl rfl h.partition.tracked) rfl rfl
    (update_field FrameHeader.data (by rfl))

/-- Bytes stored through a guard become those of its page. -/
theorem Coherent.store (h : bpm.Coherent n σ L) {g : Guard}
    (hg : bpm.pageTable.lookup g.pageId = some g.frameId) (data : Page) :
    (bpm.store g data).Coherent n (Function.update σ g.pageId data) L where
  partition := h.partition.congr rfl rfl rfl h.partition.tracked
  sized := h.sized
  packed := h.packed
  resident := by
    intro p f hp
    have hp' : bpm.pageTable.lookup p = some f := hp
    by_cases hpg : p = g.pageId
    · subst p
      obtain rfl : g.frameId = f := by simpa [hg] using hp'
      simp [BufferPoolManager.store]
    · have hf : f ≠ g.frameId := by
        rintro rfl
        exact hpg (h.partition.injective hp' hg)
      rw [Function.update_of_ne hpg, ← h.resident p f hp']
      simp [BufferPoolManager.store, hf]
  onDisk := by
    intro p hL hp
    have hne : p ≠ g.pageId := by
      rintro rfl
      exact absurd (hg.symm.trans hp) (by simp)
    rw [Function.update_of_ne hne]
    exact h.onDisk p hL hp

/-- The store may be changed at pages the pool does not have. -/
theorem Coherent.replace {σ' : PageId → Page} (h : bpm.Coherent n σ L)
    (hresident : ∀ p f, bpm.pageTable.lookup p = some f → σ' p = σ p)
    (honDisk : ∀ p, L p → σ' p = σ p) : bpm.Coherent n σ' L where
  partition := h.partition
  sized := h.sized
  packed := h.packed
  resident := fun p f hp => (h.resident p f hp).trans (hresident p f hp).symm
  onDisk := by
    intro p hL hp
    rw [honDisk p hL]
    exact h.onDisk p hL hp

theorem Coherent.newPage (h : bpm.Coherent n σ L) {p : PageId}
    (hnew : bpm.newPage = .ok (p, bpm')) (hσ : σ p = .zero pageSize) :
    bpm'.Coherent n σ (fun q => q = p ∨ L q) := by
  obtain ⟨rfl, reply, dm, hserve, rfl⟩ := newPage_eq_ok.mp hnew
  obtain ⟨hs, hpk, hcont⟩ := DiskManager.served_write h.sized h.packed hserve
  refine ⟨h.partition.congr rfl rfl rfl h.partition.tracked, hs, hpk, h.resident, ?_⟩
  intro q hq hnone
  show dm.contents q = some (σ q)
  rw [hcont]
  split
  · next heq => rw [heq, hσ]
  · next hne => exact h.onDisk q (hq.resolve_left hne) hnone

theorem Coherent.loadPage (h : bpm.Coherent n σ L) {kind : GuardKind} {p : PageId}
    {g : Guard} (hL : L p) (hp : bpm.pageTable.lookup p = none)
    (hload : bpm.loadPage B kind p = .ok (g, bpm')) : bpm'.Coherent n σ L := by
  obtain ⟨f, rest, data, dm, r, hfree, hf, hserve, hr, -, rfl⟩ := loadPage_cases hload
  obtain ⟨hdata, hs, hpk, hcont⟩ :=
    DiskManager.served_read h.sized h.packed (h.onDisk p hL hp) hserve
  obtain rfl := Option.some.inj hdata
  refine Coherent.pinned ⟨h.partition.loaded hp hfree _ dm, hs, hpk, ?_, ?_⟩ hf hr
  · intro q x hq
    have hq' : (bpm.pageTable.insert p f).lookup q = some x := hq
    rw [HashMap.lookup_insert_eq] at hq'
    show (Function.update bpm.frames f _ x).data = σ q
    split at hq'
    · next hqp =>
        obtain rfl : f = x := by simpa using hq'
        rw [Function.update_self, hqp]
    · have hne : x ≠ f := by
        rintro rfl
        exact h.partition.disjoint hq' (by simp [hfree])
      rw [Function.update_of_ne hne]
      exact h.resident q x hq'
  · intro q hq hnone
    have hnone' : (bpm.pageTable.insert p f).lookup q = none := hnone
    rw [HashMap.lookup_insert_eq] at hnone'
    split at hnone'
    · simp at hnone'
    · exact (hcont q).trans (h.onDisk q hq hnone')

/-- An eviction writes the bytes of its page back. -/
theorem Coherent.evictFrame (h : bpm.Coherent n σ L)
    (hevict : bpm.evictFrame B order = .ok bpm') : bpm'.Coherent n σ L := by
  have hpart := h.partition.evictFrame hevict
  obtain ⟨f, p, r, q, reply, dm, -, -, -, hq, hserve, rfl⟩ := evictFrame_cases hevict
  obtain ⟨dm', hserve', hs, hpk, hself, hrest⟩ := h.writeBack hq
  obtain ⟨-, rfl⟩ := ok_pair_unique hserve hserve'
  refine ⟨hpart, hs, hpk, ?_, ?_⟩
  · intro x y hx
    obtain ⟨hne, hx'⟩ := HashMap.lookup_erase_eq_some.mp hx
    have hyf : y ≠ f := by
      rintro rfl
      exact hne (h.partition.injective hx' hq)
    show (Function.update bpm.frames f _ y).data = σ x
    rw [Function.update_of_ne hyf]
    exact h.resident x y hx'
  · intro x hx hnone
    show dm.contents x = some (σ x)
    by_cases hxq : x = q
    · rw [hxq]
      exact hself
    · apply hrest x hx
      have hnone' : (bpm.pageTable.erase q).lookup x = none := hnone
      rwa [HashMap.lookup_erase_eq, if_neg hxq] at hnone'

theorem Coherent.checkPage (h : bpm.Coherent n σ L) {kind : GuardKind} {p : PageId}
    {g : Guard} (hL : L p) (hcheck : bpm.checkPage B order kind p = .ok (g, bpm')) :
    bpm'.Coherent n σ L := by
  rcases checkPage_cases hcheck with ⟨f, r, -, hf, hr, -, rfl⟩ | ⟨hp, -, hload⟩ |
    ⟨hp, -, bpm₁, hevict, hload⟩
  · exact h.pinned hf hr
  · exact h.loadPage hL hp hload
  · exact (h.evictFrame hevict).loadPage hL (evictFrame_lookup hevict hp) hload

theorem Coherent.deletePage (h : bpm.Coherent n σ L) {p : PageId}
    (hdelete : bpm.deletePage p = .ok bpm') :
    bpm'.Coherent n σ (fun q => q ≠ p ∧ L q) := by
  have hpart := h.partition.deletePage hdelete
  have hless : bpm.Coherent n σ (fun q => q ≠ p ∧ L q) :=
    ⟨h.partition, h.sized, h.packed, h.resident, fun q hq => h.onDisk q hq.2⟩
  rcases deletePage_cases hdelete with
    ⟨-, rfl⟩ | ⟨f, hp, -, ⟨-, rfl⟩ | ⟨-, reply, dm, hserve, rfl⟩⟩
  · exact hless
  · exact hless
  · obtain ⟨hs, hpk, hcont⟩ := DiskManager.served_delete h.sized h.packed hserve
    refine ⟨hpart, hs, hpk, ?_, ?_⟩
    · intro x y hx
      obtain ⟨hne, hx'⟩ := HashMap.lookup_erase_eq_some.mp hx
      have hyf : y ≠ f := by
        rintro rfl
        exact hne (h.partition.injective hx' hp)
      show (Function.update bpm.frames f _ y).data = σ x
      rw [Function.update_of_ne hyf]
      exact h.resident x y hx'
    · intro x hx hnone
      show dm.contents x = some (σ x)
      rw [hcont, if_neg hx.1]
      have hnone' : (bpm.pageTable.erase p).lookup x = none := hnone
      rw [HashMap.lookup_erase_eq, if_neg hx.1] at hnone'
      exact h.onDisk x hx.2 hnone'

/-! ### Which pages stay mapped -/

/-- The guard of a check is on the frame its page is mapped to, and the other
pages are where they were, but for the one that was evicted. -/
theorem checkPage_lookup {kind : GuardKind} {p : PageId} {g : Guard}
    (hcheck : bpm.checkPage B order kind p = .ok (g, bpm')) :
    g.pageId = p ∧ bpm'.pageTable.lookup p = some g.frameId ∧
      ∀ q f, bpm.pageTable.lookup q = some f → bpm'.pageTable.lookup q = some f ∨
        (bpm.pageTable.lookup p = none ∧ bpm.freeFrames = [] ∧
          ∃ r, bpm.arcReplacer.evict B = .ok (some f, r)) := by
  have hload_lookup : ∀ {bpm₁ : BufferPoolManager}, bpm₁.loadPage B kind p = .ok (g, bpm') →
      g.pageId = p ∧ bpm'.pageTable = bpm₁.pageTable.insert p g.frameId := by
    intro bpm₁ hload
    obtain ⟨f, rest, data, dm, r, -, -, -, -, rfl, rfl⟩ := loadPage_cases hload
    exact ⟨rfl, rfl⟩
  rcases checkPage_cases hcheck with ⟨f, r, hp, -, -, rfl, rfl⟩ | ⟨hp, -, hload⟩ |
    ⟨hp, hfree, bpm₁, hevict, hload⟩
  · exact ⟨rfl, hp, fun q x hq => Or.inl hq⟩
  · obtain ⟨hg, htable⟩ := hload_lookup hload
    refine ⟨hg, by rw [htable]; exact AList.lookup_insert _, fun q x hq => Or.inl ?_⟩
    have hne : q ≠ p := by
      rintro rfl
      simp [hp] at hq
    rw [htable, HashMap.lookup_insert_eq, if_neg hne]
    exact hq
  · obtain ⟨hg, htable⟩ := hload_lookup hload
    obtain ⟨f, p', r, q', reply, dm, hr, -, -, hq', -, rfl⟩ := evictFrame_cases hevict
    refine ⟨hg, by rw [htable]; exact AList.lookup_insert _, fun q x hq => ?_⟩
    by_cases hqq : q = q'
    · subst q
      obtain rfl : f = x := by simpa [hq'] using hq
      exact Or.inr ⟨hp, hfree, r, hr⟩
    · left
      have hne : q ≠ p := by
        rintro rfl
        simp [hp] at hq
      rw [htable, HashMap.lookup_insert_eq, if_neg hne]
      show (bpm.pageTable.erase q').lookup q = some x
      rw [HashMap.lookup_erase_eq, if_neg hqq]
      exact hq

/-- A check maps no page but its own. -/
theorem checkPage_known {kind : GuardKind} {p q : PageId} {g : Guard} {f : FrameId}
    (hcheck : bpm.checkPage B order kind p = .ok (g, bpm'))
    (hq : bpm'.pageTable.lookup q = some f) : q = p ∨ (bpm.pageTable.lookup q).isSome := by
  have hinsert : ∀ {m : HashMap PageId FrameId} {x : FrameId},
      (m.insert p x).lookup q = some f → q = p ∨ m.lookup q = some f := by
    intro m x h
    rw [HashMap.lookup_insert_eq] at h
    split at h
    · next hqp => exact Or.inl hqp
    · exact Or.inr h
  rcases checkPage_cases hcheck with ⟨f', r, -, -, -, -, rfl⟩ | ⟨-, -, hload⟩ |
    ⟨-, -, bpm₁, hevict, hload⟩
  · have hq' : bpm.pageTable.lookup q = some f := hq
    exact Or.inr (by simp [hq'])
  · obtain ⟨f', rest, data, dm, r, -, -, -, -, -, rfl⟩ := loadPage_cases hload
    exact (hinsert hq).imp_right fun h => by simp [h]
  · obtain ⟨f₁, p', r, q', reply, dm, -, -, -, -, -, rfl⟩ := evictFrame_cases hevict
    obtain ⟨f', rest, data, dm', r', -, -, -, -, -, rfl⟩ := loadPage_cases hload
    exact (hinsert hq).imp_right fun h => by
      simp [(HashMap.lookup_erase_eq_some.mp h).2]

theorem checkPage_nextPageId {kind : GuardKind} {p : PageId} {g : Guard}
    (hcheck : bpm.checkPage B order kind p = .ok (g, bpm')) :
    bpm'.nextPageId = bpm.nextPageId := by
  rcases checkPage_cases hcheck with ⟨f', r, -, -, -, -, rfl⟩ | ⟨-, -, hload⟩ |
    ⟨-, -, bpm₁, hevict, hload⟩
  · rfl
  · obtain ⟨f', rest, data, dm, r, -, -, -, -, -, rfl⟩ := loadPage_cases hload
    rfl
  · obtain ⟨f₁, p', r, q', reply, dm, -, -, -, -, -, rfl⟩ := evictFrame_cases hevict
    obtain ⟨f', rest, data, dm', r', -, -, -, -, -, rfl⟩ := loadPage_cases hload
    rfl

end Coherent

end BufferPoolManager

end StorageEngine
