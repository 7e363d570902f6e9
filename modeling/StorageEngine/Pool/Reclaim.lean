import StorageEngine.Pool.Durable

/-!
Which pages keep a slot of the file.

`delete_page` gives the slot of a page back where the page is resident, and
does nothing where it was evicted. So the pages the disk manager maps are
those created and not deleted as long as every page is deleted while it is
resident, and no page is written back that has no slot to keep.
-/

namespace StorageEngine

open Lib

namespace DiskManager

/-- The page has a slot. -/
def Maps (dm : DiskManager) (pageId : PageId) : Prop := (dm.pages.lookup pageId).isSome = true

section Maps

variable {dm dm' : DiskManager} {p : PageId} {data : Page} {reply : Option Page}

theorem serve_write_maps (hs : dm.Sized)
    (h : dm.serve ⟨.write, p, data⟩ = .ok (reply, dm')) :
    dm'.Sized ∧ ∀ q, dm'.Maps q ↔ dm.Maps q ∨ q = p := by
  obtain ⟨reply', dm₁, heq, hs', o, hpages⟩ := serve_sized hs ⟨.write, p, data⟩
  obtain ⟨-, rfl⟩ := ok_pair_unique h heq
  refine ⟨hs', fun q => ?_⟩
  rw [Maps, Maps, hpages, HashMap.lookup_insert_eq]
  split
  · next hq => simp [hq]
  · next hq => simp [hq]

theorem serve_read_maps (hs : dm.Sized) (h : dm.serve ⟨.read, p, data⟩ = .ok (reply, dm')) :
    dm'.Sized ∧ ∀ q, dm'.Maps q ↔ dm.Maps q := by
  obtain ⟨reply', dm₁, heq, hs', hpages⟩ := serve_sized hs ⟨.read, p, data⟩
  obtain ⟨-, rfl⟩ := ok_pair_unique h heq
  exact ⟨hs', fun q => by rw [Maps, Maps, hpages]⟩

theorem serve_delete_maps (hs : dm.Sized)
    (h : dm.serve ⟨.delete, p, data⟩ = .ok (reply, dm')) :
    dm'.Sized ∧ ∀ q, dm'.Maps q ↔ dm.Maps q ∧ q ≠ p := by
  obtain ⟨reply', dm₁, heq, hs', hpages⟩ := serve_sized hs ⟨.delete, p, data⟩
  obtain ⟨-, rfl⟩ := ok_pair_unique h heq
  refine ⟨hs', fun q => ?_⟩
  rw [Maps, Maps, hpages, HashMap.lookup_erase_eq]
  split
  · next hq => simp [hq]
  · next hq => simp [hq]

end Maps

end DiskManager

namespace BufferPoolManager

/-- The pages with a slot are those of `S`. -/
structure Slots (S : PageId → Prop) (bpm : BufferPoolManager) : Prop where
  sized : bpm.diskManager.Sized
  maps : ∀ q, bpm.diskManager.Maps q ↔ S q

section Slots

variable {B : Build} {order : HashOrder} {n : ℕ} {S : PageId → Prop}
  {bpm bpm' : BufferPoolManager}

theorem Slots.congr (h : bpm.Slots S) (hdisk : bpm'.diskManager = bpm.diskManager) :
    bpm'.Slots S := by
  refine ⟨?_, ?_⟩
  · rw [hdisk]
    exact h.sized
  · rw [hdisk]
    exact h.maps

theorem Slots.written (h : bpm.Slots S) {p : PageId} {data : Page} {reply : Option Page}
    (hserve : bpm.diskManager.serve ⟨.write, p, data⟩ = .ok (reply, bpm'.diskManager)) :
    bpm'.Slots fun q => S q ∨ q = p := by
  obtain ⟨hs, hmaps⟩ := DiskManager.serve_write_maps h.sized hserve
  exact ⟨hs, fun q => by rw [hmaps, h.maps]⟩

theorem Slots.iff {S' : PageId → Prop} (h : bpm.Slots S) (hS : ∀ q, S q ↔ S' q) :
    bpm.Slots S' :=
  ⟨h.sized, fun q => (h.maps q).trans (hS q)⟩

theorem Slots.newPage (h : bpm.Slots S) {p : PageId} (hnew : bpm.newPage = .ok (p, bpm')) :
    bpm'.Slots fun q => S q ∨ q = bpm.nextPageId := by
  obtain ⟨rfl, reply, dm, hserve, rfl⟩ := newPage_eq_ok.mp hnew
  exact h.written hserve

theorem Slots.dropGuard (h : bpm.Slots S) {g : Guard} (hdrop : bpm.dropGuard B g = .ok bpm') :
    bpm'.Slots S := by
  rcases dropGuard_cases hdrop with ⟨-, rfl⟩ | ⟨-, r, -, rfl⟩
  · exact h.congr rfl
  · exact h.congr rfl

theorem Slots.flushGuard (h : bpm.Slots S) {g : Guard} {flushed : Bool}
    (hflush : bpm.flushGuard g = .ok (flushed, bpm')) :
    bpm'.Slots fun q => S q ∨ q = g.pageId ∧ (bpm.frames g.frameId).isDirty = true := by
  rcases flushGuard_cases hflush with ⟨hclean, -, rfl⟩ | ⟨hdirty, -, reply, dm, hserve, rfl⟩
  · exact h.iff fun q => by simp [hclean]
  · exact (h.written hserve).iff fun q => by simp [hdirty]

theorem Slots.flushFrame (h : bpm.Slots S) {p : PageId} {f : FrameId} {flushed : Bool}
    (hflush : bpm.flushFrame B p f = .ok (flushed, bpm')) :
    bpm'.Slots fun q => S q ∨ q = p ∧ (bpm.frames f).isDirty = true := by
  obtain ⟨-, r, r', dm, -, -, hdisk, rfl⟩ := flushFrame_cases hflush
  rcases hdisk with ⟨hclean, -, rfl⟩ | ⟨hdirty, -, reply, hserve⟩
  · exact Slots.congr (h.iff fun q => by simp [hclean]) rfl
  · exact (h.written hserve).iff fun q => by simp [hdirty]

/-- The loop of `flush_all_pages` writes the dirty frames among its entries,
each of which it meets once. -/
theorem Slots.flushEntries {entries : List (PageId × FrameId)} :
    ∀ {S : PageId → Prop} {bpm bpm' : BufferPoolManager}, bpm.Slots S →
      (entries.map Prod.snd).Nodup → bpm.flushEntries B entries = .ok bpm' →
      bpm'.Slots fun q => S q ∨ ∃ f, (q, f) ∈ entries ∧ (bpm.frames f).isDirty = true := by
  induction entries with
  | nil =>
      intro S bpm bpm' h _ hloop
      obtain rfl := Except.ok.inj hloop
      exact h.iff fun q => by simp
  | cons e rest ih =>
      intro S bpm bpm' h hnodup hloop
      obtain ⟨p, f⟩ := e
      obtain ⟨hnot, hnodup⟩ := List.nodup_cons.mp hnodup
      simp only [BufferPoolManager.flushEntries] at hloop
      obtain ⟨⟨flushed, bpm₁⟩, hflush, hloop⟩ := bind_eq_ok.mp hloop
      apply (ih (h.flushFrame hflush) hnodup hloop).iff
      intro q
      -- the frame just flushed is not met again, the others are as dirty as before
      have hdirty : ∀ x, (q, x) ∈ rest →
          ((bpm₁.frames x).isDirty = true ↔ (bpm.frames x).isDirty = true) := by
        intro x hx
        have hne : x ≠ f := by
          rintro rfl
          exact hnot (List.mem_map.mpr ⟨(q, x), hx, rfl⟩)
        have hclean := flushFrame_clean hflush x
        simpa [hne] using not_congr hclean
      rw [or_assoc]
      apply or_congr Iff.rfl
      constructor
      · rintro (⟨rfl, hd⟩ | ⟨x, hx, hd⟩)
        · exact ⟨f, List.mem_cons_self, hd⟩
        · exact ⟨x, List.mem_cons_of_mem _ hx, (hdirty x hx).mp hd⟩
      · rintro ⟨x, hx, hd⟩
        rcases List.mem_cons.mp hx with heq | hx
        · obtain ⟨rfl, rfl⟩ := Prod.mk.inj heq
          exact Or.inl ⟨rfl, hd⟩
        · exact Or.inr ⟨x, hx, (hdirty x hx).mpr hd⟩

theorem Slots.flushAllPages (h : bpm.Slots S) (hpart : bpm.Partition n) {flushed : Bool}
    (hflush : bpm.flushAllPages B order = .ok (flushed, bpm')) :
    bpm'.Slots fun q => S q ∨
      ∃ f, bpm.pageTable.lookup q = some f ∧ (bpm.frames f).isDirty = true := by
  have hmem : ∀ q f, (q, f) ∈ order.entries bpm.pageTable ↔
      bpm.pageTable.lookup q = some f := by
    intro q f
    rw [(order.perm _).mem_iff, ← HashMap.mem_entries_iff]
    simp
  rw [BufferPoolManager.flushAllPages] at hflush
  split at hflush
  · next hlen =>
      obtain ⟨-, rfl⟩ := Prod.mk.inj (Except.ok.inj hflush)
      have hnil : bpm.pageTable.entries = [] := List.eq_nil_of_length_eq_zero hlen
      apply h.iff
      intro q
      simp [← HashMap.mem_entries_iff, hnil]
  · obtain ⟨bpm₁, hloop, hflush⟩ := bind_eq_ok.mp hflush
    obtain ⟨-, rfl⟩ := Prod.mk.inj (Except.ok.inj hflush)
    have hnodup : ((order.entries bpm.pageTable).map Prod.snd).Nodup := by
      rw [((order.perm bpm.pageTable).map Prod.snd).nodup_iff, List.map_map]
      exact hpart.nodup.of_append_left
    exact (h.flushEntries hnodup hloop).iff fun q => by simp only [hmem]

theorem Slots.deletePage (h : bpm.Slots S) {p : PageId}
    (hdelete : bpm.deletePage p = .ok bpm') :
    bpm'.Slots fun q => S q ∧
      ¬(q = p ∧ ∃ f, bpm.pageTable.lookup p = some f ∧ (bpm.frames f).pinCount = 0) := by
  rcases deletePage_cases hdelete with
    ⟨hnone, rfl⟩ | ⟨f, hp, -, ⟨hpin, rfl⟩ | ⟨hpin, reply, dm, hserve, rfl⟩⟩
  · exact h.iff fun q => by simp [hnone]
  · exact h.iff fun q => by simp [hp, hpin]
  · obtain ⟨hs, hmaps⟩ := DiskManager.serve_delete_maps h.sized hserve
    refine ⟨hs, fun q => ?_⟩
    rw [← h.maps]
    apply (hmaps q).trans
    simp [hp, hpin]

theorem Slots.loadPage (h : bpm.Slots S) {kind : GuardKind} {p : PageId} {g : Guard}
    (hload : bpm.loadPage B kind p = .ok (g, bpm')) : bpm'.Slots S := by
  obtain ⟨f, rest, data, dm, r, -, -, hserve, -, -, rfl⟩ := loadPage_cases hload
  obtain ⟨hs, hmaps⟩ := DiskManager.serve_read_maps h.sized hserve
  exact ⟨hs, fun q => (hmaps q).trans (h.maps q)⟩

/-- An eviction gives a slot to the page it writes back. -/
theorem Slots.checkPage (h : bpm.Slots S) (hpart : bpm.Partition n) {kind : GuardKind}
    {p : PageId} {g : Guard} (hcheck : bpm.checkPage B order kind p = .ok (g, bpm')) :
    bpm'.Slots fun q => S q ∨ (bpm.pageTable.lookup p = none ∧ bpm.freeFrames = [] ∧
      ∃ f r, bpm.arcReplacer.evict B = .ok (some f, r) ∧ bpm.pageTable.lookup q = some f) := by
  rcases checkPage_cases hcheck with ⟨f, r, hp, -, -, -, rfl⟩ | ⟨-, hfree, hload⟩ |
    ⟨hp, hfree, bpm₁, hevict, hload⟩
  · exact Slots.congr (h.iff fun q => by simp [hp]) rfl
  · exact (h.loadPage hload).iff fun q => by simp [hfree]
  · obtain ⟨f, p', r, q', reply, dm, hr, -, -, hq', hserve, rfl⟩ := evictFrame_cases hevict
    have hwritten : (bpm.released q' f r dm).Slots fun q => S q ∨ q = q' := h.written hserve
    refine Slots.loadPage (hwritten.iff ?_) hload
    intro q
    refine or_congr Iff.rfl ⟨?_, ?_⟩
    · rintro rfl
      exact ⟨hp, hfree, f, r, hr, hq'⟩
    · rintro ⟨-, -, f', r', hr', hq⟩
      obtain ⟨hf, -⟩ := ok_pair_unique hr hr'
      obtain rfl := Option.some.inj hf
      exact hpart.injective hq hq'

end Slots

end BufferPoolManager

/-- The ids `new_page` returned; `fetch_add` wraps. -/
def returned : List PoolCall → PageId → Prop
  | [], _ => False
  | .newPage :: hist, p => returned hist p ∨ p = UInt32.ofNat (created hist)
  | _ :: hist, p => returned hist p

/-- The number of live guards on a page: those taken and not dropped. -/
def liveGuards : List PoolCall → PageId → ℕ
  | [], _ => 0
  | .checkPage _ q :: hist, p => liveGuards hist p + if q = p then 1 else 0
  | .dropGuard guard :: hist, p => liveGuards hist p - if guard.pageId = p then 1 else 0
  | _ :: hist, p => liveGuards hist p

/-- The page was passed to `delete_page` while no guard on it was live. -/
def deleted : List PoolCall → PageId → Prop
  | [], _ => False
  | .deletePage q :: hist, p => deleted hist p ∨ p = q ∧ liveGuards hist q = 0
  | _ :: hist, p => deleted hist p

namespace Session

/-- The pages with a slot are those returned and not deleted. -/
def SlotsReclaimed (hist : List PoolCall) (s : Session) : Prop :=
  ∀ p, s.pool.diskManager.Maps p ↔ returned hist p ∧ ¬deleted hist p

/-- The call writes the page to disk. -/
def Writes (B : Build) (s : Session) : PoolCall → PageId → Prop
  | .newPage, p => p = s.pool.nextPageId
  | .checkPage _ q, p => s.pool.pageTable.lookup q = none ∧ s.pool.freeFrames = [] ∧
      ∃ f r, s.pool.arcReplacer.evict B = .ok (some f, r) ∧
        s.pool.pageTable.lookup p = some f
  | .flushGuard g, p => p = g.pageId ∧ (s.pool.frames g.frameId).isDirty = true
  | .flushPage q, p => p = q ∧
      ∃ f, s.pool.pageTable.lookup q = some f ∧ (s.pool.frames f).isDirty = true
  | .flushAllPages, p =>
      ∃ f, s.pool.pageTable.lookup p = some f ∧ (s.pool.frames f).isDirty = true
  | _, _ => False

/-- The page is resident and its frame is not pinned. -/
def Unpinned (s : Session) (p : PageId) : Prop :=
  ∃ f, s.pool.pageTable.lookup p = some f ∧ (s.pool.frames f).pinCount = 0

/-- A page is deleted while it is resident, its frame pinned exactly if a
guard on it is live; an id that is created was never deleted, and a page that
is written back was created and not deleted. -/
def DeletesResident (B : Build) (hist : List PoolCall) (c : PoolCall) (s : Session) : Prop :=
  match c with
  | .newPage => ¬deleted hist s.pool.nextPageId
  | .deletePage p => returned hist p → ¬deleted hist p →
      ((∀ g ∈ s.guards, g.pageId ≠ p) ↔ s.Unpinned p)
  | c => ∀ p, s.Writes B c p → returned hist p ∧ ¬deleted hist p

section Reclaim

variable {B : Build} {order : HashOrder} {n : ℕ} {hist : List PoolCall}
  {S : PageId → Prop} {s s' : Session}

/-- What a call does to the slots. -/
theorem step_slots {c : PoolCall} (hpart : s.pool.Partition n) (h : s.pool.Slots S)
    (hstep : step B order c s = some s') : s'.pool.Slots fun q =>
      (S q ∨ s.Writes B c q) ∧ ¬(c = .deletePage q ∧ s.Unpinned q) := by
  cases c with
  | newPage =>
      obtain ⟨p, pool, hnew, rfl⟩ := step_newPage.mp hstep
      exact (h.newPage hnew).iff fun q => by simp [Writes]
  | checkPage kind p =>
      obtain ⟨g, pool, hcheck, rfl⟩ := step_checkPage.mp hstep
      exact (h.checkPage hpart hcheck).iff fun q => by simp [Writes]
  | write g data =>
      obtain ⟨-, -, rfl⟩ := step_write.mp hstep
      exact BufferPoolManager.Slots.congr (h.iff fun q => by simp [Writes]) rfl
  | flushGuard g =>
      obtain ⟨-, b, pool, hflush, rfl⟩ := step_flushGuard.mp hstep
      exact (h.flushGuard hflush).iff fun q => by simp [Writes]
  | dropGuard g =>
      obtain ⟨-, pool, hdrop, rfl⟩ := step_dropGuard.mp hstep
      exact (h.dropGuard hdrop).iff fun q => by simp [Writes]
  | flushPage p =>
      obtain ⟨b, pool, hflush, rfl⟩ := step_flushPage.mp hstep
      rcases BufferPoolManager.flushPage_cases hflush with ⟨hnone, -, rfl⟩ | ⟨f, hp, hflush⟩
      · exact h.iff fun q => by simp [Writes, hnone]
      · exact (h.flushFrame hflush).iff fun q => by simp [Writes, hp]
  | flushAllPages =>
      obtain ⟨b, pool, hflush, rfl⟩ := step_flushAllPages.mp hstep
      exact (h.flushAllPages hpart hflush).iff fun q => by simp [Writes]
  | deletePage p =>
      obtain ⟨pool, hdelete, rfl⟩ := step_deletePage.mp hstep
      apply (h.deletePage hdelete).iff
      intro q
      simp only [Writes, Unpinned, PoolCall.deletePage.injEq, or_false]
      refine and_congr_right fun _ => not_congr ?_
      constructor
      · rintro ⟨rfl, hzero⟩
        exact ⟨rfl, hzero⟩
      · rintro ⟨rfl, hzero⟩
        exact ⟨rfl, hzero⟩

/-- The pages of the live guards are those the history says. -/
theorem step_liveGuards {c : PoolCall}
    (h : ∀ p, liveGuards hist p = s.guards.countP (·.pageId = p))
    (hstep : step B order c s = some s') (p : PageId) :
    liveGuards (c :: hist) p = s'.guards.countP (·.pageId = p) := by
  cases c with
  | checkPage kind q =>
      obtain ⟨g, pool, hcheck, rfl⟩ := step_checkPage.mp hstep
      obtain rfl := (BufferPoolManager.checkPage_lookup hcheck).1
      simp [liveGuards, h, List.countP_cons]
  | dropGuard g =>
      obtain ⟨hg, pool, hdrop, rfl⟩ := step_dropGuard.mp hstep
      have hperm := (List.perm_cons_erase hg).countP_eq (fun g => decide (g.pageId = p))
      rw [List.countP_cons] at hperm
      simp only [liveGuards, h, hperm, decide_eq_true_eq, Nat.add_sub_cancel]
  | newPage =>
      obtain ⟨q, pool, -, rfl⟩ := step_newPage.mp hstep
      exact h p
  | write g data =>
      obtain ⟨-, -, rfl⟩ := step_write.mp hstep
      exact h p
  | flushGuard g =>
      obtain ⟨-, b, pool, -, rfl⟩ := step_flushGuard.mp hstep
      exact h p
  | flushPage q =>
      obtain ⟨b, pool, -, rfl⟩ := step_flushPage.mp hstep
      exact h p
  | flushAllPages =>
      obtain ⟨b, pool, -, rfl⟩ := step_flushAllPages.mp hstep
      exact h p
  | deletePage q =>
      obtain ⟨pool, -, rfl⟩ := step_deletePage.mp hstep
      exact h p

theorem step_nextPageId {c : PoolCall} (h : s.pool.nextPageId = UInt32.ofNat (created hist))
    (hstep : step B order c s = some s') :
    s'.pool.nextPageId = UInt32.ofNat (created (c :: hist)) := by
  cases c with
  | newPage =>
      obtain ⟨q, pool, hnew, rfl⟩ := step_newPage.mp hstep
      obtain ⟨rfl, reply, dm, -, rfl⟩ := BufferPoolManager.newPage_eq_ok.mp hnew
      show s.pool.nextPageId + 1 = _
      rw [h]
      simp [created]
  | checkPage kind q =>
      obtain ⟨g, pool, hcheck, rfl⟩ := step_checkPage.mp hstep
      exact (BufferPoolManager.checkPage_nextPageId hcheck).trans h
  | write g data =>
      obtain ⟨-, -, rfl⟩ := step_write.mp hstep
      exact h
  | flushGuard g =>
      obtain ⟨-, b, pool, hflush, rfl⟩ := step_flushGuard.mp hstep
      rcases BufferPoolManager.flushGuard_cases hflush with
        ⟨-, -, rfl⟩ | ⟨-, -, reply, dm, -, rfl⟩
      · exact h
      · exact h
  | dropGuard g =>
      obtain ⟨-, pool, hdrop, rfl⟩ := step_dropGuard.mp hstep
      rcases BufferPoolManager.dropGuard_cases hdrop with ⟨-, rfl⟩ | ⟨-, r, -, rfl⟩
      · exact h
      · exact h
  | flushPage q =>
      obtain ⟨b, pool, hflush, rfl⟩ := step_flushPage.mp hstep
      rcases BufferPoolManager.flushPage_cases hflush with ⟨-, -, rfl⟩ | ⟨f, -, hflush⟩
      · exact h
      · obtain ⟨-, r, r', dm, -, -, -, rfl⟩ := BufferPoolManager.flushFrame_cases hflush
        exact h
  | flushAllPages =>
      obtain ⟨b, pool, hflush, rfl⟩ := step_flushAllPages.mp hstep
      refine BufferPoolManager.flushAllPages_induction
        (J := fun pool => pool.nextPageId = UInt32.ofNat (created hist)) ?_ h hflush
      rintro bpm bpm' p f flushed hJ - hflush
      obtain ⟨-, r, r', dm, -, -, -, rfl⟩ := BufferPoolManager.flushFrame_cases hflush
      exact hJ
  | deletePage q =>
      obtain ⟨pool, hdelete, rfl⟩ := step_deletePage.mp hstep
      rcases BufferPoolManager.deletePage_cases hdelete with
        ⟨-, rfl⟩ | ⟨f, -, -, ⟨-, rfl⟩ | ⟨-, reply, dm, -, rfl⟩⟩
      · exact h
      · exact h
      · exact h

/-- What every run keeps, whether or not it reclaims the slots. -/
structure Accounted (n : ℕ) (hist : List PoolCall) (s : Session) : Prop where
  partition : s.pool.Partition n
  sized : s.pool.diskManager.Sized
  next : s.pool.nextPageId = UInt32.ofNat (created hist)
  live : ∀ p, liveGuards hist p = s.guards.countP (·.pageId = p)

theorem Accounted.live_eq_zero (h : s.Accounted n hist) (p : PageId) :
    liveGuards hist p = 0 ↔ ∀ g ∈ s.guards, g.pageId ≠ p := by
  simp [h.live]

theorem step_accounted {c : PoolCall} (h : s.Accounted n hist)
    (hstep : step B order c s = some s') : s'.Accounted n (c :: hist) where
  partition := step_partition h.partition hstep
  sized := (step_slots h.partition ⟨h.sized, fun _ => Iff.rfl⟩ hstep).sized
  next := step_nextPageId h.next hstep
  live := step_liveGuards h.live hstep

/-- A call reclaims the slots exactly if it meets the condition. -/
theorem step_slotsReclaimed_iff {c : PoolCall} (h : s.Accounted n hist)
    (hslots : s.SlotsReclaimed hist) (hstep : step B order c s = some s') :
    s'.SlotsReclaimed (c :: hist) ↔ DeletesResident B hist c s := by
  have hmaps := (step_slots h.partition ⟨h.sized, hslots⟩ hstep).maps
  simp only [SlotsReclaimed, hmaps]
  cases c with
  | newPage =>
      simp only [Writes, returned, deleted, DeletesResident, reduceCtorEq, false_and,
        not_false_eq_true, and_true, h.next]
      constructor
      · exact fun hall => ((hall _).mp (Or.inr rfl)).2
      · rintro hnot q
        constructor
        · rintro (⟨hret, hdel⟩ | rfl)
          · exact ⟨Or.inl hret, hdel⟩
          · exact ⟨Or.inr rfl, hnot⟩
        · rintro ⟨hret | rfl, hdel⟩
          · exact Or.inl ⟨hret, hdel⟩
          · exact Or.inr rfl
  | deletePage p =>
      simp only [Writes, returned, deleted, DeletesResident, or_false, PoolCall.deletePage.injEq,
        ← h.live_eq_zero]
      constructor
      · intro hall hret hdel
        have hp := hall p
        simp only [hret, hdel, true_and, not_false_eq_true, false_or] at hp
        exact (not_iff_not.mp hp).symm
      · intro hcond q
        -- only the slot of the deleted page may change, and only if it was to be reclaimed
        by_cases hq : q = p
        · subst q
          by_cases hown : returned hist p ∧ ¬deleted hist p
          · have hiff := hcond hown.1 hown.2
            simp [hown, hiff]
          · simp only [hown, false_and, false_iff]
            exact fun hboth => hown ⟨hboth.1, fun hdel => hboth.2 (Or.inl hdel)⟩
        · simp [hq, Ne.symm hq]
  | checkPage kind p =>
      simp only [returned, deleted, DeletesResident, reduceCtorEq, false_and,
        not_false_eq_true, and_true, or_iff_left_iff_imp]
  | write g data => simp [Writes, returned, deleted, DeletesResident]
  | flushGuard g =>
      simp only [returned, deleted, DeletesResident, reduceCtorEq, false_and,
        not_false_eq_true, and_true, or_iff_left_iff_imp]
  | dropGuard g => simp [Writes, returned, deleted, DeletesResident]
  | flushPage p =>
      simp only [returned, deleted, DeletesResident, reduceCtorEq, false_and,
        not_false_eq_true, and_true, or_iff_left_iff_imp]
  | flushAllPages =>
      simp only [returned, deleted, DeletesResident, reduceCtorEq, false_and,
        not_false_eq_true, and_true, or_iff_left_iff_imp]

end Reclaim

/-- **Deleting a page reclaims its slot** throughout a run exactly if every
page is deleted while it is resident, and only created pages that were not
deleted are written back. -/
theorem slotsReclaimed_iff_deletesResident (B : Build) (order : HashOrder) (n : ℕ)
    (dbFile : DbFile) (hf : dbFile.NoFaults) (dm : DiskManager)
    (hnew : DiskManager.new dbFile = .ok dm) (calls : List PoolCall) :
    Throughout (step B order) SlotsReclaimed [] calls (.new n dm) ↔
      Along (step B order) (DeletesResident B) [] calls (.new n dm) := by
  obtain rfl : DiskManager.fresh dbFile = dm := by
    simpa [DiskManager.new_eq_fresh hf] using hnew
  refine throughout_iff_along (P := fun hist s => Accounted n hist s ∧ SlotsReclaimed hist s)
    ?_ (fun _ _ h => h.2) ?_ ⟨⟨BufferPoolManager.new_partition n _,
      (DiskManager.fresh_tracks hf).1, rfl, fun _ => rfl⟩, fun p => ?_⟩
  · rintro hist c s s' ⟨h, hslots⟩ hc hs'
    exact ⟨step_accounted h hs', (step_slotsReclaimed_iff h hslots hs').mpr hc⟩
  · rintro hist c s s' ⟨h, hslots⟩ hs' hslots'
    exact (step_slotsReclaimed_iff h hslots hs').mp hslots'
  · simp [DiskManager.Maps, DiskManager.fresh, new, BufferPoolManager.new, returned]

theorem slotsReclaimed_iff_deletesResident_one_page :
    Throughout (step ⟨true⟩ .listed) SlotsReclaimed []
        [.newPage, .checkPage .read 0, .dropGuard ⟨.read, 0, 0⟩, .deletePage 0]
        (.new 1 (.fresh DiskManager.blankFile)) ↔
      Along (step ⟨true⟩ .listed) (DeletesResident ⟨true⟩) []
        [.newPage, .checkPage .read 0, .dropGuard ⟨.read, 0, 0⟩, .deletePage 0]
        (.new 1 (.fresh DiskManager.blankFile)) :=
  slotsReclaimed_iff_deletesResident ⟨true⟩ .listed 1 DiskManager.blankFile (fun _ => rfl) _
    (DiskManager.new_eq_fresh fun _ => rfl) _

/-- With one frame: page 0 is read and dropped, evicted by page 1, and deleted. -/
def evictedDelete : List PoolCall :=
  [.newPage, .newPage, .checkPage .read 0, .dropGuard ⟨.read, 0, 0⟩, .checkPage .read 1,
    .deletePage 0]

/-- No page is asked for after it was deleted, and still page 0 keeps its slot. -/
theorem evictedDelete_leaks :
    Along (step ⟨true⟩ .listed) (fun hist c _ => ∀ kind p, c = .checkPage kind p →
        PoolCall.deletePage p ∉ hist) [] evictedDelete (.new 1 (.fresh DiskManager.blankFile)) ∧
      ¬Throughout (step ⟨true⟩ .listed) SlotsReclaimed [] evictedDelete
        (.new 1 (.fresh DiskManager.blankFile)) := by
  constructor
  · exact fun _ _ => ⟨by simp, fun _ _ => ⟨by simp, fun _ _ => ⟨by simp, fun _ _ => ⟨by simp,
      fun _ _ => ⟨by simp, fun _ _ => ⟨by simp, trivial⟩⟩⟩⟩⟩⟩
  intro h
  have hrun : (run (step ⟨true⟩ .listed) evictedDelete
      (.new 1 (.fresh DiskManager.blankFile))).map
        (fun s => s.pool.diskManager.pages.lookup 0) = some (some 0) := by
    decide +kernel
  obtain ⟨s, hs, hlook⟩ := Option.map_eq_some_iff.mp hrun
  have hmaps : s.pool.diskManager.Maps 0 := by simp [DiskManager.Maps, hlook]
  have hdeleted := ((h.last hs 0).mp hmaps).2
  exact hdeleted (by simp [evictedDelete, deleted, liveGuards])

end Session

end StorageEngine
