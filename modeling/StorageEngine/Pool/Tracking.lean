import StorageEngine.Pool.Pins

/-!
The replacer and the page table.

`mru` and `mfu` together list the resident pages with their frames, as long
as no page is taken out of the table by a delete: `remove` returns early on a
frame that is marked evictable, and a resident page without guards always
has a marked frame, so that every delete that unmaps a page leaves its entry
behind.
-/

namespace StorageEngine

open Lib

namespace ArcReplacer

variable {B : Build} {r r' : ArcReplacer} {f : FrameId} {p : PageId}

/-- An access to a tracked page promotes it. -/
theorem Recorded.eq_promote (h : Recorded B r f p r') (hmem : (f, p) ∈ r.mru ++ r.mfu) :
    r' = { r with
      timestampAccess := insert (f, p) r.timestampAccess
      mru := r.mru.filter (· ≠ (f, p))
      mfu := (f, p) :: r.mfu.filter (· ≠ (f, p)) } := by
  cases h with
  | promote hit => rfl
  | mruGhostHit miss => exact absurd hmem miss
  | mfuGhostHit miss => exact absurd hmem miss
  | dropMruGhost miss => exact absurd hmem miss
  | dropMfuGhost miss => exact absurd hmem miss
  | enter miss => exact absurd hmem miss
  | untracked miss => exact absurd hmem miss

/-- An access to a tracked page only moves its entry. -/
theorem Recorded.perm_of_mem (h : Recorded B r f p r') (hmem : (f, p) ∈ r.mru ++ r.mfu)
    (hnodup : (r.mru ++ r.mfu).Nodup) :
    (r'.mru ++ r'.mfu).Perm (r.mru ++ r.mfu) ∧ r'.mruGhost = r.mruGhost ∧
      r'.mfuGhost = r.mfuGhost ∧ r'.mru.length ≤ r.mru.length := by
  rw [h.eq_promote hmem]
  refine ⟨?_, rfl, rfl, List.length_filter_le _ _⟩
  have hperm := (List.perm_cons_erase hmem).symm
  rw [hnodup.erase_eq_filter, List.filter_append] at hperm
  have hne : (fun e : FrameId × PageId => e != (f, p)) = fun e => decide (e ≠ (f, p)) := by
    funext e
    by_cases he : e = (f, p) <;> simp [he]
  rw [hne] at hperm
  exact List.perm_middle.trans hperm

/-- An access to a page that is not tracked enters it, off the ghost lists,
provided that `mru` with its ghosts is not too long. -/
theorem Recorded.perm_of_notMem (h : Recorded B r f p r') (hmiss : (f, p) ∉ r.mru ++ r.mfu)
    (hlt : r.mru.length < r.replacerSize)
    (hbound : r.mru.length + r.mruGhost.length ≤ r.replacerSize)
    (hdisj : ∀ q ∈ r.mruGhost, q ∉ r.mfuGhost) :
    (r'.mru ++ r'.mfu).Perm ((f, p) :: (r.mru ++ r.mfu)) ∧
      r'.mruGhost.Sublist r.mruGhost ∧ r'.mfuGhost.Sublist r.mfuGhost ∧
      p ∉ r'.mruGhost ∧ p ∉ r'.mfuGhost ∧
      r'.mru.length + r'.mruGhost.length ≤ r.replacerSize := by
  cases h with
  | promote hit => exact absurd hit hmiss
  | mruGhostHit miss hit t target =>
      refine ⟨List.perm_middle, List.filter_sublist, List.Sublist.refl _, by simp,
        hdisj p hit, ?_⟩
      have := List.length_filter_le (· ≠ p) r.mruGhost
      simp only
      omega
  | mfuGhostHit miss miss₁ hit t target =>
      exact ⟨List.perm_middle, List.Sublist.refl _, List.filter_sublist, miss₁, by simp, hbound⟩
  | dropMruGhost miss miss₁ miss₂ full =>
      refine ⟨List.Perm.refl _, List.dropLast_sublist _, List.Sublist.refl _,
        fun hp => miss₁ ((List.dropLast_sublist _).subset hp), miss₂, ?_⟩
      simp only [List.length_cons, List.length_dropLast]
      omega
  | dropMfuGhost miss miss₁ miss₂ room full =>
      refine ⟨List.Perm.refl _, List.Sublist.refl _, List.dropLast_sublist _, miss₁,
        fun hp => miss₂ ((List.dropLast_sublist _).subset hp), ?_⟩
      simp only [List.length_cons]
      omega
  | enter miss miss₁ miss₂ room room₂ =>
      refine ⟨List.Perm.refl _, List.Sublist.refl _, List.Sublist.refl _, miss₁, miss₂, ?_⟩
      simp only [List.length_cons]
      omega
  | untracked miss miss₁ miss₂ tooMany => omega

/-- The lists stay within their total bound: below it an access adds one
entry, and at the bound a page leaves a ghost list. -/
theorem Recorded.total_of_notMem (h : Recorded B r f p r') (hmiss : (f, p) ∉ r.mru ++ r.mfu)
    (hroom : r.mru.length + r.mfu.length < r.replacerSize)
    (htotal : r.mru.length + r.mfu.length + r.mfuGhost.length + r.mruGhost.length ≤
      2 * r.replacerSize) :
    r'.mru.length + r'.mfu.length + r'.mfuGhost.length + r'.mruGhost.length ≤
      2 * r.replacerSize := by
  have hghost : ∀ l : List PageId, p ∈ l → (l.filter (· ≠ p)).length < l.length := by
    intro l hl
    exact List.length_filter_lt_length_iff_exists.mpr ⟨p, hl, by simp⟩
  cases h with
  | promote hit => exact absurd hit hmiss
  | mruGhostHit _ hit t ht =>
      have hlt := hghost r.mruGhost hit
      simp only [List.length_cons] at hlt ⊢
      omega
  | mfuGhostHit _ miss₁ hit t ht =>
      have hlt := hghost r.mfuGhost hit
      simp only [List.length_cons] at hlt ⊢
      omega
  | dropMruGhost _ _ _ full =>
      simp only [List.length_cons, List.length_dropLast]
      omega
  | dropMfuGhost _ _ _ room full =>
      simp only [List.length_cons, List.length_dropLast]
      omega
  | enter _ _ _ _ room₂ =>
      simp only [List.length_cons]
      omega
  | untracked => exact htotal

/-- An evicted page is a ghost afterwards, and nothing else changes there. -/
theorem Evicted.ghosts (h : Evicted B r f p r') :
    (r'.mruGhost = p :: r.mruGhost ∧ r'.mfuGhost = r.mfuGhost ∧
        r'.mru.length + 1 = r.mru.length) ∨
      (r'.mruGhost = r.mruGhost ∧ r'.mfuGhost = p :: r.mfuGhost ∧
        r'.mru.length = r.mru.length) := by
  cases h with
  | fromMru pre post m hf list =>
      refine Or.inl ⟨rfl, rfl, ?_⟩
      rw [list]
      simp only [List.length_append, List.length_cons]
      omega
  | fromMfu pre post m hf list => exact Or.inr ⟨rfl, rfl, rfl⟩

end ArcReplacer

namespace BufferPoolManager

/-- The replacer tracks the resident pages and no other. -/
structure ReplacerTracks (bpm : BufferPoolManager) : Prop where
  entries : ∀ f p, (f, p) ∈ bpm.arcReplacer.mru ++ bpm.arcReplacer.mfu ↔
    bpm.pageTable.lookup p = some f
  nodup : (bpm.arcReplacer.mru ++ bpm.arcReplacer.mfu).Nodup
  free : ∀ f ∈ bpm.freeFrames, (∀ e ∈ bpm.arcReplacer.mru ++ bpm.arcReplacer.mfu, e.1 ≠ f) ∧
    f ∉ bpm.arcReplacer.evictablePages
  ghosts : ∀ p f, bpm.pageTable.lookup p = some f →
    p ∉ bpm.arcReplacer.mruGhost ∧ p ∉ bpm.arcReplacer.mfuGhost

/-- The page table as the replacer should list it. -/
def residents (bpm : BufferPoolManager) : List (FrameId × PageId) :=
  bpm.pageTable.entries.map fun e => (e.2, e.1)

/-- The invariant of the pool behind `ReplacerTracks`. A page that was
evicted is in one ghost list only, so that a ghost hit takes it off both. -/
structure Tracking (n : ℕ) (bpm : BufferPoolManager) : Prop where
  partition : bpm.Partition n
  entries : (bpm.arcReplacer.mru ++ bpm.arcReplacer.mfu).Perm bpm.residents
  ghosts : ∀ p f, bpm.pageTable.lookup p = some f →
    p ∉ bpm.arcReplacer.mruGhost ∧ p ∉ bpm.arcReplacer.mfuGhost
  disjoint : ∀ p ∈ bpm.arcReplacer.mruGhost, p ∉ bpm.arcReplacer.mfuGhost
  size : bpm.arcReplacer.replacerSize = n
  bound : bpm.arcReplacer.mru.length + bpm.arcReplacer.mruGhost.length ≤ n
  marked : ∀ p f, bpm.pageTable.lookup p = some f → (bpm.frames f).pinCount ≤ 0 →
    f ∈ bpm.arcReplacer.evictablePages

/-- A free frame is unpinned and unmarked. -/
def CleanFree (bpm : BufferPoolManager) : Prop :=
  ∀ f ∈ bpm.freeFrames, (bpm.frames f).pinCount = 0 ∧
    f ∉ bpm.arcReplacer.evictablePages

section Tracking

variable {B : Build} {order : HashOrder} {n : ℕ} {bpm bpm' : BufferPoolManager}

theorem mem_residents {f : FrameId} {p : PageId} :
    (f, p) ∈ bpm.residents ↔ bpm.pageTable.lookup p = some f := by
  simp only [residents, List.mem_map]
  constructor
  · rintro ⟨⟨q, f'⟩, hmem, heq⟩
    obtain ⟨rfl, rfl⟩ := Prod.mk.inj heq
    exact HashMap.mem_entries_iff.mp hmem
  · intro hp
    exact ⟨⟨p, f⟩, HashMap.mem_entries_iff.mpr hp, rfl⟩

namespace Tracking

theorem mem_iff (h : bpm.Tracking n) {f : FrameId} {p : PageId} :
    (f, p) ∈ bpm.arcReplacer.mru ++ bpm.arcReplacer.mfu ↔
      bpm.pageTable.lookup p = some f := by
  rw [h.entries.mem_iff, mem_residents]

theorem nodup (h : bpm.Tracking n) : (bpm.arcReplacer.mru ++ bpm.arcReplacer.mfu).Nodup := by
  rw [h.entries.nodup_iff]
  have hframes : (bpm.residents.map (·.1)).Nodup := by
    have := h.partition.nodup.of_append_left
    simpa [residents, mappedFrames, Function.comp_def] using this
  exact List.Nodup.of_map _ hframes

theorem mru_length_le (h : bpm.Tracking n) :
    bpm.arcReplacer.mru.length + bpm.freeFrames.length ≤ n := by
  have hlen := h.entries.length_eq
  have hpart := h.partition.length
  simp only [List.length_append, residents, mappedFrames, List.length_map] at hlen hpart
  omega

theorem replacerTracks (h : bpm.Tracking n) (hclean : bpm.CleanFree) :
    bpm.ReplacerTracks where
  entries := fun f p => h.mem_iff
  nodup := h.nodup
  free := by
    intro f hf
    refine ⟨?_, (hclean f hf).2⟩
    rintro ⟨f', p⟩ he rfl
    exact h.partition.disjoint (h.mem_iff.mp he) hf
  ghosts := h.ghosts

end Tracking

/-! ### The building blocks -/

theorem new_tracking (n : ℕ) (dm : DiskManager) : (new n dm).Tracking n where
  partition := new_partition n dm
  entries := List.Perm.refl _
  ghosts := fun p f hp => absurd hp (by simp [new])
  disjoint := fun p hp => absurd hp List.not_mem_nil
  size := rfl
  bound := Nat.zero_le n
  marked := fun p f hp => absurd hp (by simp [new])

theorem new_cleanFree (n : ℕ) (dm : DiskManager) : (new n dm).CleanFree := by
  intro f hf
  exact ⟨rfl, by simp [new, ArcReplacer.new]⟩

/-- Marks and headers may change as long as the unpinned pages stay marked. -/
theorem Tracking.congr (h : bpm.Tracking n) (hpart : bpm'.Partition n)
    (htable : bpm'.pageTable = bpm.pageTable)
    (hentries : (bpm'.arcReplacer.mru ++ bpm'.arcReplacer.mfu).Perm
      (bpm.arcReplacer.mru ++ bpm.arcReplacer.mfu))
    (hmru : bpm'.arcReplacer.mru.length ≤ bpm.arcReplacer.mru.length)
    (hmruGhost : bpm'.arcReplacer.mruGhost = bpm.arcReplacer.mruGhost)
    (hmfuGhost : bpm'.arcReplacer.mfuGhost = bpm.arcReplacer.mfuGhost)
    (hsize : bpm'.arcReplacer.replacerSize = bpm.arcReplacer.replacerSize)
    (hmarked : ∀ p f, bpm.pageTable.lookup p = some f → (bpm'.frames f).pinCount ≤ 0 →
      f ∈ bpm'.arcReplacer.evictablePages) : bpm'.Tracking n where
  partition := hpart
  entries := by
    rw [residents, htable]
    exact hentries.trans h.entries
  ghosts := by
    rw [hmruGhost, hmfuGhost, htable]
    exact h.ghosts
  disjoint := by
    rw [hmruGhost, hmfuGhost]
    exact h.disjoint
  size := hsize.trans h.size
  bound := by
    have := h.bound
    rw [hmruGhost]
    omega
  marked := by
    rw [htable]
    exact hmarked

/-- What leaves the replacer's lists, its marks and the pin counts alone. -/
theorem Tracking.frame (h : bpm.Tracking n) (hpart : bpm'.Partition n)
    (htable : bpm'.pageTable = bpm.pageTable) (hr : bpm'.arcReplacer = bpm.arcReplacer)
    (hframes : ∀ f, (bpm'.frames f).pinCount = (bpm.frames f).pinCount) :
    bpm'.Tracking n := by
  refine h.congr hpart htable ?_ ?_ ?_ ?_ ?_ ?_
  · rw [hr]
  · rw [hr]
  · rw [hr]
  · rw [hr]
  · rw [hr]
  · intro p f hp hpin
    rw [hframes] at hpin
    rw [hr]
    exact h.marked p f hp hpin

/-- An access to a resident page keeps the lists. -/
theorem Tracking.recorded (h : bpm.Tracking n) {f : FrameId} {p : PageId} {r : ArcReplacer}
    (hp : bpm.pageTable.lookup p = some f)
    (hr : bpm.arcReplacer.recordAccess B f p = .ok r) :
    (r.mru ++ r.mfu).Perm (bpm.arcReplacer.mru ++ bpm.arcReplacer.mfu) ∧
      r.mruGhost = bpm.arcReplacer.mruGhost ∧ r.mfuGhost = bpm.arcReplacer.mfuGhost ∧
      r.mru.length ≤ bpm.arcReplacer.mru.length :=
  (ArcReplacer.recordAccess_recorded hr).perm_of_mem (h.mem_iff.mpr hp) h.nodup

theorem Tracking.pinned (h : bpm.Tracking n) {f : FrameId} {p : PageId} {r : ArcReplacer}
    (hp : bpm.pageTable.lookup p = some f)
    (hr : bpm.arcReplacer.recordAccess B f p = .ok r) : (bpm.pinned f r).Tracking n := by
  have hrec := ArcReplacer.recordAccess_recorded hr
  obtain ⟨hperm, hmruGhost, hmfuGhost, hmru⟩ := h.recorded hp hr
  have hlt : f < bpm.numFrames := h.partition.numFrames ▸ h.partition.lt hp
  refine h.congr (h.partition.pinned hlt hr) rfl hperm hmru hmruGhost hmfuGhost
    hrec.replacerSize_eq ?_
  intro q f' hq hpin
  show f' ∈ r.evictablePages
  rw [hrec.evictablePages_eq]
  apply h.marked q f' hq
  rw [pinned_pinCount] at hpin
  omega

theorem Tracking.flushFrame (h : bpm.Tracking n) {f : FrameId} {p : PageId} {flushed : Bool}
    (hp : bpm.pageTable.lookup p = some f)
    (hflush : bpm.flushFrame B p f = .ok (flushed, bpm')) : bpm'.Tracking n := by
  have hpart := h.partition.flushFrame hflush
  obtain ⟨-, r, r', dm, hr, hr', -, rfl⟩ := flushFrame_cases hflush
  have hrec := ArcReplacer.recordAccess_recorded hr
  obtain ⟨hperm, hmruGhost, hmfuGhost, hmru⟩ := h.recorded hp hr
  have hmarked : ∀ q f', bpm.pageTable.lookup q = some f' →
      ((bpm.touched f r' dm).frames f').pinCount ≤ 0 → f' ∈ r.evictablePages := by
    intro q f' hq hpin
    rw [hrec.evictablePages_eq]
    apply h.marked q f' hq
    rwa [touched_pinCount] at hpin
  rcases hr' with ⟨-, rfl⟩ | ⟨-, hr'⟩
  · exact h.congr hpart rfl hperm hmru hmruGhost hmfuGhost hrec.replacerSize_eq hmarked
  · obtain ⟨m, -, rfl⟩ := ArcReplacer.setEvictable_eq_ok.mp hr'
    exact h.congr hpart rfl hperm hmru hmruGhost hmfuGhost hrec.replacerSize_eq
      fun q f' hq hpin => Finset.mem_insert_of_mem (hmarked q f' hq hpin)

theorem CleanFree.flushFrame (hclean : bpm.CleanFree) (h : bpm.Partition n) {f : FrameId}
    {p : PageId} {flushed : Bool} (hp : bpm.pageTable.lookup p = some f)
    (hflush : bpm.flushFrame B p f = .ok (flushed, bpm')) : bpm'.CleanFree := by
  obtain ⟨-, r, r', dm, hr, hr', -, rfl⟩ := flushFrame_cases hflush
  have hmarks := (ArcReplacer.recordAccess_recorded hr).evictablePages_eq
  intro f' hf'
  have hne : f' ≠ f := by
    rintro rfl
    exact h.disjoint hp hf'
  obtain ⟨hpin, hmark⟩ := hclean f' hf'
  refine ⟨?_, ?_⟩
  · show (Function.update bpm.frames f _ f').pinCount = 0
    rw [Function.update_of_ne hne]
    exact hpin
  · show f' ∉ r'.evictablePages
    rw [← hmarks] at hmark
    rcases hr' with ⟨-, rfl⟩ | ⟨-, hr'⟩
    · exact hmark
    · obtain ⟨m, -, rfl⟩ := ArcReplacer.setEvictable_eq_ok.mp hr'
      simp [hne, hmark]

theorem Tracking.dropGuard {g : Guard} (h : bpm.Tracking n)
    (hdrop : bpm.dropGuard B g = .ok bpm') : bpm'.Tracking n := by
  have hpart := h.partition.dropGuard hdrop
  have hpin : ∀ f, f ≠ g.frameId →
      ((bpm.unpinned g.frameId).frames f).pinCount = (bpm.frames f).pinCount := by
    intro f hf
    simp [unpinned, hf]
  rcases dropGuard_cases hdrop with ⟨hne, rfl⟩ | ⟨hone, r, hr, rfl⟩
  · apply h.congr hpart rfl (List.Perm.refl _) le_rfl rfl rfl rfl
    intro p f hp hle
    apply h.marked p f hp
    by_cases hf : f = g.frameId
    · subst f
      simp only [unpinned, setFrame_frames, Function.update_self] at hle
      omega
    · rwa [hpin f hf] at hle
  · obtain ⟨m, -, rfl⟩ := ArcReplacer.setEvictable_eq_ok.mp hr
    apply h.congr hpart rfl (List.Perm.refl _) le_rfl rfl rfl rfl
    intro p f hp hle
    show f ∈ insert g.frameId bpm.arcReplacer.evictablePages
    by_cases hf : f = g.frameId
    · exact Finset.mem_insert.mpr (Or.inl hf)
    · refine Finset.mem_insert_of_mem (h.marked p f hp ?_)
      rwa [← hpin f hf]

theorem CleanFree.dropGuard {g : Guard} (hclean : bpm.CleanFree)
    (hg : g.frameId ∉ bpm.freeFrames) (hdrop : bpm.dropGuard B g = .ok bpm') :
    bpm'.CleanFree := by
  have hne : ∀ f ∈ bpm.freeFrames, f ≠ g.frameId := by
    rintro f hf rfl
    exact hg hf
  rcases dropGuard_cases hdrop with ⟨-, rfl⟩ | ⟨-, r, hr, rfl⟩
  · intro f hf
    obtain ⟨hpin, hmark⟩ := hclean f hf
    exact ⟨by simpa [unpinned, hne f hf] using hpin, hmark⟩
  · obtain ⟨m, -, rfl⟩ := ArcReplacer.setEvictable_eq_ok.mp hr
    intro f hf
    obtain ⟨hpin, hmark⟩ := hclean f hf
    exact ⟨by simpa [unpinned, hne f hf] using hpin, by simpa [hne f hf] using hmark⟩

/-- What changes the pages but neither the pins nor the marks. -/
theorem CleanFree.congr (hclean : bpm.CleanFree)
    (hpin : ∀ f, (bpm'.frames f).pinCount = (bpm.frames f).pinCount)
    (hfree : bpm'.freeFrames = bpm.freeFrames) (hr : bpm'.arcReplacer = bpm.arcReplacer) :
    bpm'.CleanFree := by
  intro f hf
  rw [hfree] at hf
  rw [hpin, hr]
  exact hclean f hf

/-- A page read into an unpinned frame is tracked afterwards. -/
theorem Tracking.loadPage {kind : GuardKind} {p : PageId} {g : Guard} {f : FrameId}
    (h : bpm.Tracking n) (hp : bpm.pageTable.lookup p = none)
    (hfree : bpm.freeFrames.head? = some f) (hpin : (bpm.frames f).pinCount = 0)
    (hload : bpm.loadPage B kind p = .ok (g, bpm')) : bpm'.Tracking n := by
  have hpart := h.partition.loadPage hp hload
  obtain ⟨f', rest, data, dm, r, hfree', -, -, hr, rfl, rfl⟩ := loadPage_cases hload
  obtain rfl : f' = f := by simpa [hfree'] using hfree
  have hrec := ArcReplacer.recordAccess_recorded hr
  have hlen := h.mru_length_le
  rw [hfree', List.length_cons] at hlen
  have hmiss : (f', p) ∉ bpm.arcReplacer.mru ++ bpm.arcReplacer.mfu := by
    rw [h.mem_iff, hp]
    simp
  have hlt : bpm.arcReplacer.mru.length < bpm.arcReplacer.replacerSize := by
    rw [h.size]
    omega
  have hbound : bpm.arcReplacer.mru.length + bpm.arcReplacer.mruGhost.length ≤
      bpm.arcReplacer.replacerSize := by
    rw [h.size]
    exact h.bound
  obtain ⟨hperm, hmruGhost, hmfuGhost, hpmru, hpmfu, hbound'⟩ :=
    hrec.perm_of_notMem hmiss hlt hbound h.disjoint
  have hinsert : (bpm.pageTable.insert p f').entries = ⟨p, f'⟩ :: bpm.pageTable.entries :=
    AList.entries_insert_of_notMem (AList.lookup_eq_none.mp hp)
  have hlook : ∀ q x, (bpm.pageTable.insert p f').lookup q = some x →
      q = p ∧ x = f' ∨ q ≠ p ∧ bpm.pageTable.lookup q = some x := by
    intro q x hq
    rw [HashMap.lookup_insert_eq] at hq
    split at hq
    · next hqp => exact Or.inl ⟨hqp, by simpa using hq.symm⟩
    · next hqp => exact Or.inr ⟨hqp, hq⟩
  refine ⟨hpart, ?_, ?_, fun q hq => ?_, hrec.replacerSize_eq.trans h.size,
    h.size ▸ hbound', ?_⟩
  · show (r.mru ++ r.mfu).Perm ((bpm.pageTable.insert p f').entries.map _)
    rw [hinsert]
    exact hperm.trans (h.entries.cons (f', p))
  · intro q x hq
    show q ∉ r.mruGhost ∧ q ∉ r.mfuGhost
    rcases hlook q x hq with ⟨rfl, -⟩ | ⟨-, hq⟩
    · exact ⟨hpmru, hpmfu⟩
    · obtain ⟨h₁, h₂⟩ := h.ghosts q x hq
      exact ⟨fun hm => h₁ (hmruGhost.subset hm), fun hm => h₂ (hmfuGhost.subset hm)⟩
  · exact fun hm => h.disjoint q (hmruGhost.subset hq) (hmfuGhost.subset hm)
  · intro q x hq hle
    show x ∈ r.evictablePages
    rw [hrec.evictablePages_eq]
    simp only [BufferPoolManager.pinned, setFrame_frames, BufferPoolManager.loaded] at hle
    rcases hlook q x hq with ⟨-, rfl⟩ | ⟨-, hq'⟩
    · simp only [Function.update_self] at hle
      omega
    · have hne : x ≠ f' := by
        rintro rfl
        exact h.partition.disjoint hq' (by simp [hfree'])
      rw [Function.update_of_ne hne, Function.update_of_ne hne] at hle
      exact h.marked q x hq' hle

theorem CleanFree.loadPage {kind : GuardKind} {p : PageId} {g : Guard}
    (h : bpm.Partition n) (hclean : ∀ f ∈ bpm.freeFrames.tail,
      (bpm.frames f).pinCount = 0 ∧ f ∉ bpm.arcReplacer.evictablePages)
    (hload : bpm.loadPage B kind p = .ok (g, bpm')) : bpm'.CleanFree := by
  obtain ⟨f, rest, data, dm, r, hfree, -, -, hr, rfl, rfl⟩ := loadPage_cases hload
  intro f' hf'
  have hmem : f' ∈ rest := hf'
  have hne : f' ≠ f := by
    have hnodup := h.nodup.of_append_right
    rw [hfree, List.nodup_cons] at hnodup
    exact fun heq => hnodup.1 (heq ▸ hmem)
  obtain ⟨hpin, hmark⟩ := hclean f' (by simpa [hfree] using hmem)
  refine ⟨?_, ?_⟩
  · simp only [BufferPoolManager.pinned, setFrame_frames, BufferPoolManager.loaded]
    rw [Function.update_of_ne hne, Function.update_of_ne hne]
    exact hpin
  · show f' ∉ r.evictablePages
    rwa [(ArcReplacer.recordAccess_recorded hr).evictablePages_eq]

/-- The page unmapped by an eviction is the one the replacer gave up. -/
theorem Tracking.evictFrame (h : bpm.Tracking n)
    (hevict : bpm.evictFrame B order = .ok bpm') :
    bpm'.Tracking n ∧ ∃ f, bpm'.freeFrames = f :: bpm.freeFrames ∧
      (bpm'.frames f).pinCount = 0 := by
  have hpart := h.partition.evictFrame hevict
  obtain ⟨f, p, r, q, reply, dm, -, hev, -, hq, -, rfl⟩ := evictFrame_cases hevict
  have hp := h.mem_iff.mp hev.mem
  obtain rfl := h.partition.injective hp hq
  have hlook : ∀ x y, (bpm.pageTable.erase p).lookup x = some y →
      x ≠ p ∧ bpm.pageTable.lookup x = some y := by
    intro x y hx
    rw [HashMap.lookup_erase_eq] at hx
    split at hx
    · simp at hx
    · next hxp => exact ⟨hxp, hx⟩
  obtain ⟨hnmru, hnmfu⟩ := h.ghosts p f hp
  have hbound := h.bound
  refine ⟨⟨hpart, ?_, ?_, ?_, hev.replacerSize_eq.trans h.size, ?_, ?_⟩, f, rfl, ?_⟩
  · have herase : bpm.residents.Perm
        ((f, p) :: (bpm.pageTable.erase p).entries.map fun e => (e.2, e.1)) :=
      (HashMap.entries_perm_erase hp).map fun e : (_ : PageId) × FrameId => (e.2, e.1)
    exact (hev.perm.symm.trans (h.entries.trans herase)).cons_inv
  · intro x y hx
    obtain ⟨hne, hx⟩ := hlook x y hx
    obtain ⟨h₁, h₂⟩ := h.ghosts x y hx
    show x ∉ r.mruGhost ∧ x ∉ r.mfuGhost
    rcases hev.ghosts with ⟨hg₁, hg₂, -⟩ | ⟨hg₁, hg₂, -⟩
    · rw [hg₁, hg₂]
      simp [hne, h₁, h₂]
    · rw [hg₁, hg₂]
      simp [hne, h₁, h₂]
  · intro x hx
    show x ∉ r.mfuGhost
    rcases hev.ghosts with ⟨hg₁, hg₂, -⟩ | ⟨hg₁, hg₂, -⟩
    · rw [hg₂]
      rcases List.mem_cons.mp (hg₁ ▸ hx) with rfl | hx
      · exact hnmfu
      · exact h.disjoint x hx
    · rw [hg₂, List.mem_cons, not_or]
      refine ⟨?_, h.disjoint x (hg₁ ▸ hx)⟩
      rintro rfl
      exact hnmru (hg₁ ▸ hx)
  · show r.mru.length + r.mruGhost.length ≤ n
    rcases hev.ghosts with ⟨hg₁, -, hlen⟩ | ⟨hg₁, -, hlen⟩
    · rw [hg₁, List.length_cons]
      omega
    · rw [hg₁]
      omega
  · intro x y hx hle
    obtain ⟨hne, hx'⟩ := hlook x y hx
    have hyf : y ≠ f := by
      rintro rfl
      exact hne (h.partition.injective hx' hp)
    show y ∈ r.evictablePages
    rw [hev.evictable.2]
    refine Finset.mem_erase.mpr ⟨hyf, h.marked x y hx' ?_⟩
    simp only [BufferPoolManager.released] at hle
    rwa [Function.update_of_ne hyf] at hle
  · show (Function.update bpm.frames f _ f).pinCount = 0
    rw [Function.update_self]
    rfl

theorem Tracking.checkPage {kind : GuardKind} {p : PageId} {g : Guard} (h : bpm.Tracking n)
    (hclean : bpm.CleanFree) (hcheck : bpm.checkPage B order kind p = .ok (g, bpm')) :
    bpm'.Tracking n ∧ bpm'.CleanFree := by
  rcases checkPage_cases hcheck with ⟨f, r, hp, -, hr, rfl, rfl⟩ | ⟨hp, hfree, hload⟩ |
    ⟨hp, hfree, bpm₁, hevict, hload⟩
  · refine ⟨h.pinned hp hr, fun f' hf' => ?_⟩
    obtain ⟨hpin, hmark⟩ := hclean f' hf'
    have hne : f' ≠ f := by
      rintro rfl
      exact h.partition.disjoint hp hf'
    refine ⟨by simpa [BufferPoolManager.pinned, hne] using hpin, ?_⟩
    show f' ∉ r.evictablePages
    rwa [(ArcReplacer.recordAccess_recorded hr).evictablePages_eq]
  · obtain ⟨f, rest, hf⟩ := List.exists_cons_of_ne_nil hfree
    refine ⟨h.loadPage hp (by rw [hf]; rfl) (hclean f (by simp [hf])).1 hload,
      CleanFree.loadPage h.partition (fun f' hf' => hclean f' (List.mem_of_mem_tail hf')) hload⟩
  · obtain ⟨h₁, f, hf, hpin⟩ := h.evictFrame hevict
    refine ⟨h₁.loadPage (evictFrame_lookup hevict hp) (by rw [hf]; rfl) hpin hload,
      CleanFree.loadPage h₁.partition (fun f' hf' => ?_) hload⟩
    simp [hf, hfree] at hf'

end Tracking

end BufferPoolManager

namespace Session

/-- Free frames have no guards. -/
def GuardsOffFree (s : Session) : Prop := ∀ g ∈ s.guards, g.frameId ∉ s.pool.freeFrames

/-- The invariant of a session that never unmaps a page by a delete. -/
structure Tracked (n : ℕ) (s : Session) : Prop where
  pool : s.pool.Tracking n
  clean : s.pool.CleanFree
  guards : s.GuardsOffFree

/-- The call is not a delete of a resident page that nobody pins. -/
def UnmapsNothing (_ : List PoolCall) (c : PoolCall) (s : Session) : Prop :=
  ∀ p, c = .deletePage p → ∀ f, s.pool.pageTable.lookup p = some f →
    (s.pool.frames f).pinCount ≠ 0

section Tracked

variable {B : Build} {order : HashOrder} {n : ℕ} {s s' : Session}

theorem step_tracked {hist : List PoolCall} {c : PoolCall} (h : s.Tracked n)
    (hc : UnmapsNothing hist c s) (hstep : step B order c s = some s') : s'.Tracked n := by
  obtain ⟨hpool, hclean, hguards⟩ := h
  have hpart' := step_partition hpool.partition hstep
  cases c with
  | newPage =>
      obtain ⟨p, pool, hnew, rfl⟩ := step_newPage.mp hstep
      obtain ⟨-, reply, dm, -, rfl⟩ := BufferPoolManager.newPage_eq_ok.mp hnew
      exact ⟨hpool.frame hpart' rfl rfl fun _ => rfl, hclean, hguards⟩
  | checkPage kind p =>
      obtain ⟨g, pool, hcheck, rfl⟩ := step_checkPage.mp hstep
      obtain ⟨hpool', hclean'⟩ := hpool.checkPage hclean hcheck
      refine ⟨hpool', hclean', fun g' hg' => ?_⟩
      obtain ⟨hsub, hg⟩ := BufferPoolManager.checkPage_freeFrames hpool.partition hcheck
      rcases List.mem_cons.mp hg' with rfl | hg'
      · exact hg
      · exact fun hmem => hguards g' hg' (hsub hmem)
  | write g data =>
      obtain ⟨-, -, rfl⟩ := step_write.mp hstep
      have hpin := s.pool.dataMut_store_pinCount g data
      exact ⟨hpool.frame hpart' rfl rfl hpin, hclean.congr hpin rfl rfl, hguards⟩
  | flushGuard g =>
      obtain ⟨-, b, pool, hflush, rfl⟩ := step_flushGuard.mp hstep
      have hpin := BufferPoolManager.flushGuard_pinCount hflush
      rcases BufferPoolManager.flushGuard_cases hflush with
        ⟨-, -, rfl⟩ | ⟨-, -, reply, dm, -, rfl⟩
      · exact ⟨hpool, hclean, hguards⟩
      · exact ⟨hpool.frame hpart' rfl rfl hpin, hclean.congr hpin rfl rfl, hguards⟩
  | dropGuard g =>
      obtain ⟨hg, pool, hdrop, rfl⟩ := step_dropGuard.mp hstep
      refine ⟨hpool.dropGuard hdrop, hclean.dropGuard (hguards g hg) hdrop, ?_⟩
      have hfree := BufferPoolManager.dropGuard_freeFrames hdrop
      intro g' hg'
      show g'.frameId ∉ pool.freeFrames
      rw [hfree]
      exact hguards g' (List.mem_of_mem_erase hg')
  | flushPage p =>
      obtain ⟨b, pool, hflush, rfl⟩ := step_flushPage.mp hstep
      rcases BufferPoolManager.flushPage_cases hflush with ⟨-, -, rfl⟩ | ⟨f, hp, hflush⟩
      · exact ⟨hpool, hclean, hguards⟩
      · refine ⟨hpool.flushFrame hp hflush, hclean.flushFrame hpool.partition hp hflush, ?_⟩
        obtain ⟨-, r, r', dm, -, -, -, rfl⟩ := BufferPoolManager.flushFrame_cases hflush
        exact hguards
  | flushAllPages =>
      obtain ⟨b, pool, hflush, rfl⟩ := step_flushAllPages.mp hstep
      refine BufferPoolManager.flushAllPages_induction
        (J := fun pool => Tracked n ⟨pool, s.guards⟩) ?_ ⟨hpool, hclean, hguards⟩ hflush
      rintro pool₁ pool₂ p f flushed ⟨hpool, hclean, hguards⟩ hp hflush
      refine ⟨hpool.flushFrame hp hflush, hclean.flushFrame hpool.partition hp hflush, ?_⟩
      obtain ⟨-, r, r', dm, -, -, -, rfl⟩ := BufferPoolManager.flushFrame_cases hflush
      exact hguards
  | deletePage p =>
      obtain ⟨pool, hdelete, rfl⟩ := step_deletePage.mp hstep
      rcases BufferPoolManager.deletePage_cases hdelete with
        ⟨-, rfl⟩ | ⟨f, hp, -, ⟨-, rfl⟩ | ⟨hzero, -⟩⟩
      · exact ⟨hpool, hclean, hguards⟩
      · exact ⟨hpool, hclean, hguards⟩
      · exact absurd hzero (hc p rfl f hp)

theorem new_tracked (n : ℕ) (dm : DiskManager) : (new n dm).Tracked n where
  pool := BufferPoolManager.new_tracking n dm
  clean := BufferPoolManager.new_cleanFree n dm
  guards := fun _ hg => absurd hg List.not_mem_nil

/-- **The replacer tracks the resident pages** in a run exactly if no delete
of the run unmaps a page. -/
theorem replacerTracks_iff_unmapsNothing (B : Build) (order : HashOrder) (n : ℕ)
    (dm : DiskManager) (calls : List PoolCall) :
    Throughout (step B order) (fun _ s => s.pool.ReplacerTracks) [] calls (.new n dm) ↔
      Along (step B order) UnmapsNothing [] calls (.new n dm) := by
  refine throughout_iff_along (P := fun _ s => s.Tracked n) ?_
    (fun _ _ h => h.pool.replacerTracks h.clean) ?_ (new_tracked n dm)
  · intro hist c s s' h hc hstep
    exact step_tracked h hc hstep
  · rintro hist c s s' h hstep h' p rfl f hp hzero
    obtain ⟨pool, hdelete, rfl⟩ := step_deletePage.mp hstep
    rcases BufferPoolManager.deletePage_cases hdelete with
      ⟨hnone, -⟩ | ⟨f', hp', -, ⟨hne, -⟩ | ⟨-, reply, dm', -, rfl⟩⟩
    · simp [hp] at hnone
    · obtain rfl : f = f' := by simpa [hp] using hp'
      exact hne hzero
    · obtain rfl : f = f' := by simpa [hp] using hp'
      -- the frame is marked, so `remove` keeps the entry of the page
      have hmark := h.pool.marked p f hp (by omega)
      have hremove : s.pool.arcReplacer.remove f = s.pool.arcReplacer := by
        simp [ArcReplacer.remove, hmark]
      have hstale := (h'.entries f p).mp (by
        show (f, p) ∈ (s.pool.arcReplacer.remove f).mru ++ (s.pool.arcReplacer.remove f).mfu
        rw [hremove]
        exact h.pool.mem_iff.mpr hp)
      have hgone : (s.pool.pageTable.erase p).lookup p = some f := hstale
      simp at hgone

/-- A page is created, read, dropped and deleted. -/
def staleCalls : List PoolCall :=
  [.newPage, .checkPage .read 0, .dropGuard ⟨.read, 0, 0⟩, .deletePage 0]

theorem staleCalls_leave_entry :
    ¬Throughout (step ⟨true⟩ .listed) (fun _ s => s.pool.ReplacerTracks) [] staleCalls
      (.new 1 (.fresh DiskManager.blankFile)) := by
  intro h
  have hrun : (run (step ⟨true⟩ .listed) staleCalls
      (.new 1 (.fresh DiskManager.blankFile))).map
        (fun s => (s.pool.arcReplacer.mru, s.pool.pageTable.lookup 0)) =
          some ([(0, 0)], none) := by
    decide +kernel
  obtain ⟨s, hs, hlists⟩ := Option.map_eq_some_iff.mp hrun
  obtain ⟨hmru, hlook⟩ := Prod.mk.inj hlists
  have hentry := ((h.last hs).entries 0 0).mp (by simp [hmru])
  rw [hlook] at hentry
  exact absurd hentry (by decide)

end Tracked

end Session

end StorageEngine
