import StorageEngine.Pool.ReadBack

/-!
Flushing is durable.

A frame that is not marked dirty has the bytes its page has on disk. Every
operation keeps that: bytes of a frame change under `data_mut`, which marks
it, and the bytes of a resident page change on disk only where its frame is
written out. What a flush leaves clean is therefore on disk.
-/

namespace StorageEngine

open Lib

namespace BufferPoolManager

/-- The clean frames have the bytes of their pages on disk. -/
def Durable (bpm : BufferPoolManager) : Prop :=
  ∀ p f, bpm.pageTable.lookup p = some f → (bpm.frames f).isDirty = false →
    bpm.diskManager.contents p = some (bpm.frames f).data

section Durable

variable {B : Build} {order : HashOrder} {n : ℕ} {σ : PageId → Page} {L : PageId → Prop}
  {bpm bpm' : BufferPoolManager}

theorem new_durable (n : ℕ) (dm : DiskManager) : (new n dm).Durable :=
  fun p f hp => absurd hp (by simp [new])

/-- What a change to no more than one page and its frame has to keep. -/
theorem Durable.change (h : bpm.Durable) (p : PageId)
    (hself : ∀ f, bpm'.pageTable.lookup p = some f → (bpm'.frames f).isDirty = false →
      bpm'.diskManager.contents p = some (bpm'.frames f).data)
    (hother : ∀ q f, q ≠ p → bpm'.pageTable.lookup q = some f →
      bpm.pageTable.lookup q = some f ∧ bpm'.frames f = bpm.frames f ∧
        bpm'.diskManager.contents q = bpm.diskManager.contents q) : bpm'.Durable := by
  intro q f hq hclean
  by_cases hqp : q = p
  · subst q
    exact hself f hq hclean
  · obtain ⟨hq', hframe, hdisk⟩ := hother q f hqp hq
    rw [hframe] at hclean ⊢
    rw [hdisk]
    exact h q f hq' hclean

theorem Durable.congr (h : bpm.Durable) (hdisk : bpm'.diskManager = bpm.diskManager)
    (htable : bpm'.pageTable = bpm.pageTable)
    (hdata : ∀ f, (bpm'.frames f).data = (bpm.frames f).data)
    (hdirty : ∀ f, (bpm'.frames f).isDirty = (bpm.frames f).isDirty) : bpm'.Durable := by
  intro p f hp hclean
  rw [htable] at hp
  rw [hdirty] at hclean
  rw [hdisk, hdata]
  exact h p f hp hclean

theorem Durable.pinned (h : bpm.Durable) (f : FrameId) (r : ArcReplacer) :
    (bpm.pinned f r).Durable :=
  h.congr rfl rfl (update_field FrameHeader.data (by rfl))
    (update_field FrameHeader.isDirty (by rfl))

theorem Durable.dropGuard (h : bpm.Durable) {g : Guard}
    (hdrop : bpm.dropGuard B g = .ok bpm') : bpm'.Durable := by
  have hunpinned : (bpm.unpinned g.frameId).Durable :=
    h.congr rfl rfl (update_field FrameHeader.data (by rfl))
      (update_field FrameHeader.isDirty (by rfl))
  rcases dropGuard_cases hdrop with ⟨-, rfl⟩ | ⟨-, r, -, rfl⟩
  · exact hunpinned
  · exact hunpinned

/-- Bytes written through `data_mut` are in a frame that is marked. -/
theorem Durable.write (h : bpm.Durable) (g : Guard) (data : Page) :
    ((bpm.dataMut g).store g data).Durable := by
  intro p f hp hclean
  -- the frame written to is dirty, so that the clean one is another
  have hne : f ≠ g.frameId := by
    rintro rfl
    simp [store, dataMut] at hclean
  have hframe : ((bpm.dataMut g).store g data).frames f = bpm.frames f := by
    simp [store, dataMut, hne]
  rw [hframe] at hclean ⊢
  exact h p f hp hclean

/-- A resident page written to disk, its header replaced by one with the same
bytes. -/
theorem Durable.flushed (h : bpm.Durable) (hc : bpm.Coherent n σ L) {p : PageId}
    {f : FrameId} {header : FrameHeader} {reply : Option Page} {dm : DiskManager}
    (hp : bpm.pageTable.lookup p = some f)
    (hserve : bpm.diskManager.serve ⟨.write, p, (bpm.frames f).data⟩ = .ok (reply, dm))
    (hdisk : bpm'.diskManager = dm) (htable : bpm'.pageTable = bpm.pageTable)
    (hframes : bpm'.frames = Function.update bpm.frames f header)
    (hdata : header.data = (bpm.frames f).data) : bpm'.Durable := by
  obtain ⟨-, -, hcont⟩ := DiskManager.served_write hc.sized hc.packed hserve
  refine h.change p (fun x hx _ => ?_) (fun q x hq hx => ?_)
  · rw [htable] at hx
    obtain rfl : f = x := Option.some.inj (hp.symm.trans hx)
    rw [hdisk, hframes, hcont, if_pos rfl, Function.update_self, hdata]
  · rw [htable] at hx
    have hne : x ≠ f := by
      rintro rfl
      exact hq (hc.partition.injective hx hp)
    rw [hdisk, hframes, hcont, if_neg hq, Function.update_of_ne hne]
    exact ⟨hx, rfl, rfl⟩

theorem Durable.flushGuard (h : bpm.Durable) (hc : bpm.Coherent n σ L) {g : Guard}
    {flushed : Bool} (hg : bpm.pageTable.lookup g.pageId = some g.frameId)
    (hflush : bpm.flushGuard g = .ok (flushed, bpm')) : bpm'.Durable := by
  rcases flushGuard_cases hflush with ⟨-, -, rfl⟩ | ⟨-, -, reply, dm, hserve, rfl⟩
  · exact h
  · exact h.flushed hc hg hserve rfl rfl rfl rfl

theorem Durable.flushFrame (h : bpm.Durable) (hc : bpm.Coherent n σ L) {p : PageId}
    {f : FrameId} {flushed : Bool} (hp : bpm.pageTable.lookup p = some f)
    (hflush : bpm.flushFrame B p f = .ok (flushed, bpm')) : bpm'.Durable := by
  obtain ⟨-, r, r', dm, -, -, hdisk, rfl⟩ := flushFrame_cases hflush
  rcases hdisk with ⟨hclean, -, rfl⟩ | ⟨-, -, reply, hserve⟩
  · exact h.congr rfl rfl (update_field FrameHeader.data (by rfl))
      (update_field FrameHeader.isDirty hclean.symm)
  · exact h.flushed hc hp hserve rfl rfl rfl rfl

theorem Durable.newPage (h : bpm.Durable) (hc : bpm.Coherent n σ L) {p : PageId}
    (hp : bpm.pageTable.lookup p = none) (hnew : bpm.newPage = .ok (p, bpm')) :
    bpm'.Durable := by
  obtain ⟨rfl, reply, dm, hserve, rfl⟩ := newPage_eq_ok.mp hnew
  obtain ⟨-, -, hcont⟩ := DiskManager.served_write hc.sized hc.packed hserve
  refine h.change bpm.nextPageId (fun f hf => ?_) (fun q f hq hf => ⟨hf, rfl, ?_⟩)
  · exact absurd (hp.symm.trans hf) (by simp)
  · exact (hcont q).trans (if_neg hq)

/-- A frame is filled with the bytes of its page on disk. -/
theorem Durable.loadPage (h : bpm.Durable) (hc : bpm.Coherent n σ L) {kind : GuardKind}
    {p : PageId} {g : Guard} (hL : L p) (hp : bpm.pageTable.lookup p = none)
    (hload : bpm.loadPage B kind p = .ok (g, bpm')) : bpm'.Durable := by
  obtain ⟨f, rest, data, dm, r, hfree, -, hserve, -, -, rfl⟩ := loadPage_cases hload
  obtain ⟨hdata, -, -, hcont⟩ :=
    DiskManager.served_read hc.sized hc.packed (hc.onDisk p hL hp) hserve
  obtain rfl := Option.some.inj hdata
  refine Durable.pinned (h.change p (fun x hx _ => ?_) (fun q x hq hx => ?_)) f r
  · obtain rfl : f = x := by simpa [loaded] using hx
    show dm.contents p = some (Function.update bpm.frames f _ f).data
    rw [hcont, hc.onDisk p hL hp, Function.update_self]
  · have hx' : bpm.pageTable.lookup q = some x := by
      have hx' : (bpm.pageTable.insert p f).lookup q = some x := hx
      rwa [HashMap.lookup_insert_eq, if_neg hq] at hx'
    -- the frame filled was free, no page was mapped to it
    have hne : x ≠ f := by
      rintro rfl
      exact hc.partition.disjoint hx' (by simp [hfree])
    exact ⟨hx', Function.update_of_ne hne _ _, hcont q⟩

/-- A page unmapped, with a request to the disk about it alone. -/
theorem Durable.released (h : bpm.Durable) (hc : bpm.Coherent n σ L) {p : PageId}
    {f : FrameId} {r : ArcReplacer} {dm : DiskManager}
    (hp : bpm.pageTable.lookup p = some f)
    (hdisk : ∀ q, q ≠ p → dm.contents q = bpm.diskManager.contents q) :
    (bpm.released p f r dm).Durable := by
  refine h.change p (fun x hx => ?_) (fun q x hq hx => ?_)
  · exact absurd rfl (HashMap.lookup_erase_eq_some.mp hx).1
  · have hx' := (HashMap.lookup_erase_eq_some.mp hx).2
    have hne : x ≠ f := by
      rintro rfl
      exact hq (hc.partition.injective hx' hp)
    exact ⟨hx', Function.update_of_ne hne _ _, hdisk q hq⟩

theorem Durable.evictFrame (h : bpm.Durable) (hc : bpm.Coherent n σ L)
    (hevict : bpm.evictFrame B order = .ok bpm') : bpm'.Durable := by
  obtain ⟨f, p, r, q, reply, dm, -, -, -, hq, hserve, rfl⟩ := evictFrame_cases hevict
  obtain ⟨-, -, hcont⟩ := DiskManager.served_write hc.sized hc.packed hserve
  exact h.released hc hq fun x hx => (hcont x).trans (if_neg hx)

theorem Durable.deletePage (h : bpm.Durable) (hc : bpm.Coherent n σ L) {p : PageId}
    (hdelete : bpm.deletePage p = .ok bpm') : bpm'.Durable := by
  rcases deletePage_cases hdelete with
    ⟨-, rfl⟩ | ⟨f, hp, -, ⟨-, rfl⟩ | ⟨-, reply, dm, hserve, rfl⟩⟩
  · exact h
  · exact h
  · obtain ⟨-, -, hcont⟩ := DiskManager.served_delete hc.sized hc.packed hserve
    exact h.released hc hp fun x hx => (hcont x).trans (if_neg hx)

theorem Durable.checkPage (h : bpm.Durable) (hc : bpm.Coherent n σ L) {kind : GuardKind}
    {p : PageId} {g : Guard} (hL : L p)
    (hcheck : bpm.checkPage B order kind p = .ok (g, bpm')) : bpm'.Durable := by
  rcases checkPage_cases hcheck with ⟨f, r, -, -, -, -, rfl⟩ | ⟨hp, -, hload⟩ |
    ⟨hp, -, bpm₁, hevict, hload⟩
  · exact h.pinned f r
  · exact h.loadPage hc hL hp hload
  · exact (h.evictFrame hc hevict).loadPage (hc.evictFrame hevict) hL
      (evictFrame_lookup hevict hp) hload

/-! ### What a flush leaves -/

theorem flushGuard_clean {g : Guard} {flushed : Bool}
    (h : bpm.flushGuard g = .ok (flushed, bpm')) :
    (bpm'.frames g.frameId).isDirty = false := by
  rcases flushGuard_cases h with ⟨hclean, -, rfl⟩ | ⟨-, -, reply, dm, -, rfl⟩
  · exact hclean
  · simp

theorem flushFrame_clean {p : PageId} {f : FrameId} {flushed : Bool}
    (h : bpm.flushFrame B p f = .ok (flushed, bpm')) (f' : FrameId) :
    (bpm'.frames f').isDirty = false ↔ f' = f ∨ (bpm.frames f').isDirty = false := by
  obtain ⟨-, r, r', dm, -, -, -, rfl⟩ := flushFrame_cases h
  show (Function.update bpm.frames f _ f').isDirty = false ↔ _
  by_cases hf : f' = f
  · subst f'
    simp
  · simp [hf]

/-- The loop of `flush_all_pages` leaves the frames of its entries clean. -/
theorem flushEntries_clean {entries : List (PageId × FrameId)} :
    ∀ {bpm bpm' : BufferPoolManager}, bpm.flushEntries B entries = .ok bpm' →
      ∀ f, (f ∈ entries.map Prod.snd ∨ (bpm.frames f).isDirty = false) →
        (bpm'.frames f).isDirty = false := by
  induction entries with
  | nil =>
      intro bpm bpm' h f hf
      obtain rfl := Except.ok.inj h
      exact hf.resolve_left List.not_mem_nil
  | cons e rest ih =>
      intro bpm bpm' h f hf
      obtain ⟨p, f₁⟩ := e
      simp only [flushEntries] at h
      obtain ⟨⟨flushed, bpm₁⟩, hflush, h⟩ := bind_eq_ok.mp h
      have hclean := flushFrame_clean hflush f
      apply ih h f
      rw [hclean]
      rcases hf with hf | hf
      · rw [List.map_cons, List.mem_cons] at hf
        exact hf.elim (fun heq => Or.inr (Or.inl heq)) Or.inl
      · exact Or.inr (Or.inr hf)

theorem flushAllPages_clean {p : PageId} {f : FrameId} {flushed : Bool}
    (hp : bpm.pageTable.lookup p = some f)
    (h : bpm.flushAllPages B order = .ok (flushed, bpm')) :
    (bpm'.frames f).isDirty = false := by
  have hmem : (p, f) ∈ order.entries bpm.pageTable :=
    (order.perm _).mem_iff.mpr (List.mem_map.mpr ⟨⟨p, f⟩, AList.mem_lookup_iff.mp hp, rfl⟩)
  rw [flushAllPages] at h
  split at h
  · next hlen =>
      have hnil : bpm.pageTable.entries = [] := List.eq_nil_of_length_eq_zero hlen
      have hent := AList.mem_lookup_iff.mp hp
      rw [hnil] at hent
      exact absurd hent List.not_mem_nil
  · obtain ⟨bpm₁, hloop, h⟩ := bind_eq_ok.mp h
    obtain ⟨-, rfl⟩ := Prod.mk.inj (Except.ok.inj h)
    exact flushEntries_clean hloop f (Or.inl (List.mem_map.mpr ⟨(p, f), hmem, rfl⟩))

/-- The bytes of every page are where they were. -/
def SamePages (bpm bpm' : BufferPoolManager) : Prop :=
  bpm'.pageTable = bpm.pageTable ∧ ∀ f, (bpm'.frames f).data = (bpm.frames f).data

theorem SamePages.refl (bpm : BufferPoolManager) : bpm.SamePages bpm := ⟨rfl, fun _ => rfl⟩

theorem SamePages.trans {bpm'' : BufferPoolManager} (h : bpm.SamePages bpm')
    (h' : bpm'.SamePages bpm'') : bpm.SamePages bpm'' :=
  ⟨h'.1.trans h.1, fun f => (h'.2 f).trans (h.2 f)⟩

theorem flushGuard_samePages {g : Guard} {flushed : Bool}
    (h : bpm.flushGuard g = .ok (flushed, bpm')) : bpm.SamePages bpm' := by
  rcases flushGuard_cases h with ⟨-, -, rfl⟩ | ⟨-, -, reply, dm, -, rfl⟩
  · exact .refl _
  · exact ⟨rfl, update_field FrameHeader.data (by rfl)⟩

theorem flushFrame_samePages {p : PageId} {f : FrameId} {flushed : Bool}
    (h : bpm.flushFrame B p f = .ok (flushed, bpm')) : bpm.SamePages bpm' := by
  obtain ⟨-, r, r', dm, -, -, -, rfl⟩ := flushFrame_cases h
  exact ⟨rfl, update_field FrameHeader.data (by rfl)⟩

theorem flushPage_samePages {p : PageId} {flushed : Bool}
    (h : bpm.flushPage B p = .ok (flushed, bpm')) : bpm.SamePages bpm' := by
  rcases flushPage_cases h with ⟨-, -, rfl⟩ | ⟨f, -, hflush⟩
  · exact .refl _
  · exact flushFrame_samePages hflush

theorem flushAllPages_samePages {flushed : Bool}
    (h : bpm.flushAllPages B order = .ok (flushed, bpm')) : bpm.SamePages bpm' :=
  flushAllPages_induction (J := bpm.SamePages)
    (fun _ _ _ _ _ hJ _ hflush => hJ.trans (flushFrame_samePages hflush)) (.refl bpm) h

end Durable

end BufferPoolManager

/-- The call flushes the page, where it is resident. -/
def PoolCall.Flushes : PoolCall → PageId → Prop
  | .flushGuard guard, p => p = guard.pageId
  | .flushPage pageId, p => p = pageId
  | .flushAllPages, _ => True
  | _, _ => False

namespace Session

/-- `read_page` gives the bytes in the frame of the page. -/
def OnDisk (s : Session) (p : PageId) (f : FrameId) : Prop :=
  ∀ buf, ∃ dm, s.pool.diskManager.readPage p buf = .ok (.ok (s.pool.frames f).data, dm)

/-- What is clean is on disk, what was just flushed is, and no flush of a
page changes the bytes of any. -/
structure FlushesDurably (B : Build) (order : HashOrder) (hist : List PoolCall)
    (s : Session) : Prop where
  clean : ∀ p f, s.pool.pageTable.lookup p = some f → (s.pool.frames f).isDirty = false →
    s.OnDisk p f
  flushed : ∀ c rest p f, hist = c :: rest → c.Flushes p →
    s.pool.pageTable.lookup p = some f → s.OnDisk p f
  keeps : ∀ c s' p, c.Flushes p → step B order c s = some s' → s.pool.SamePages s'.pool

section FlushesDurably

variable {B : Build} {order : HashOrder} {n : ℕ} {hist : List PoolCall} {s s' : Session}

theorem step_flush_samePages {c : PoolCall} {p : PageId} (hc : c.Flushes p)
    (hstep : step B order c s = some s') : s.pool.SamePages s'.pool := by
  cases c with
  | flushGuard g =>
      obtain ⟨-, b, pool, hflush, rfl⟩ := step_flushGuard.mp hstep
      exact BufferPoolManager.flushGuard_samePages hflush
  | flushPage q =>
      obtain ⟨b, pool, hflush, rfl⟩ := step_flushPage.mp hstep
      exact BufferPoolManager.flushPage_samePages hflush
  | flushAllPages =>
      obtain ⟨b, pool, hflush, rfl⟩ := step_flushAllPages.mp hstep
      exact BufferPoolManager.flushAllPages_samePages hflush
  | newPage => exact hc.elim
  | checkPage kind q => exact hc.elim
  | write g data => exact hc.elim
  | dropGuard g => exact hc.elim
  | deletePage q => exact hc.elim

/-- A flush leaves the frame of the page clean, whatever it returned. -/
theorem step_flush_clean {c : PoolCall} {p : PageId} {f : FrameId} (hheld : s.Held)
    (hc : c.Flushes p) (hstep : step B order c s = some s')
    (hp : s'.pool.pageTable.lookup p = some f) : (s'.pool.frames f).isDirty = false := by
  rw [(step_flush_samePages hc hstep).1] at hp
  cases c with
  | flushGuard g =>
      obtain ⟨hg, b, pool, hflush, rfl⟩ := step_flushGuard.mp hstep
      obtain rfl : p = g.pageId := hc
      obtain rfl : g.frameId = f := Option.some.inj ((hheld g hg).symm.trans hp)
      exact BufferPoolManager.flushGuard_clean hflush
  | flushPage q =>
      obtain ⟨b, pool, hflush, rfl⟩ := step_flushPage.mp hstep
      obtain rfl : p = q := hc
      rcases BufferPoolManager.flushPage_cases hflush with ⟨hnone, -, -⟩ | ⟨f', hf', hflush⟩
      · exact absurd (hnone.symm.trans hp) (by simp)
      · obtain rfl : f' = f := Option.some.inj (hf'.symm.trans hp)
        exact (BufferPoolManager.flushFrame_clean hflush f').mpr (Or.inl rfl)
  | flushAllPages =>
      obtain ⟨b, pool, hflush, rfl⟩ := step_flushAllPages.mp hstep
      exact BufferPoolManager.flushAllPages_clean hp hflush
  | newPage => exact hc.elim
  | checkPage kind q => exact hc.elim
  | write g data => exact hc.elim
  | dropGuard g => exact hc.elim
  | deletePage q => exact hc.elim

theorem step_durable {c : PoolCall} (h : s.pool.Durable) (hc : s.Coherent n hist)
    (hreq : Requests hist c s) (hstep : step B order c s = some s') : s'.pool.Durable := by
  cases c with
  | newPage =>
      obtain ⟨p, pool, hnew, rfl⟩ := step_newPage.mp hstep
      have hp : p = s.pool.nextPageId := (BufferPoolManager.newPage_eq_ok.mp hnew).1
      refine h.newPage hc.pool ?_ hnew
      -- every mapped page is older than the one created
      cases hlook : s.pool.pageTable.lookup p with
      | none => rfl
      | some f =>
          have hlt := hc.known p f hlook
          rw [hp, hc.next] at hlt
          exact absurd hlt (lt_irrefl _)
  | checkPage kind p =>
      obtain ⟨g, pool, hcheck, rfl⟩ := step_checkPage.mp hstep
      exact h.checkPage hc.pool (hreq.2 kind p rfl).1 hcheck
  | write g data =>
      obtain ⟨-, -, rfl⟩ := step_write.mp hstep
      exact h.write g data
  | flushGuard g =>
      obtain ⟨hg, b, pool, hflush, rfl⟩ := step_flushGuard.mp hstep
      exact h.flushGuard hc.pool (hc.held g hg) hflush
  | dropGuard g =>
      obtain ⟨-, pool, hdrop, rfl⟩ := step_dropGuard.mp hstep
      exact h.dropGuard hdrop
  | flushPage p =>
      obtain ⟨b, pool, hflush, rfl⟩ := step_flushPage.mp hstep
      rcases BufferPoolManager.flushPage_cases hflush with ⟨-, -, rfl⟩ | ⟨f, hp, hflush⟩
      · exact h
      · exact h.flushFrame hc.pool hp hflush
  | flushAllPages =>
      obtain ⟨b, pool, hflush, rfl⟩ := step_flushAllPages.mp hstep
      refine (BufferPoolManager.flushAllPages_induction
        (J := fun pool => pool.Durable ∧ pool.Coherent n (written hist) (Requestable hist))
        ?_ ⟨h, hc.pool⟩ hflush).1
      exact fun _ _ _ _ _ hJ hp hflush =>
        ⟨hJ.1.flushFrame hJ.2 hp hflush, hJ.2.flushFrame hp hflush⟩
  | deletePage p =>
      obtain ⟨pool, hdelete, rfl⟩ := step_deletePage.mp hstep
      exact h.deletePage hc.pool hdelete

end FlushesDurably

/-- **Flushing is durable**: in every run that asks for pages as `Requests`
says, the clean frames have the bytes of the disk, so that a page that was
just flushed is on disk as it is in its frame. -/
theorem flushesDurably_throughout (B : Build) (order : HashOrder) (n : ℕ) (dbFile : DbFile)
    (hf : dbFile.NoFaults) (dm : DiskManager) (hnew : DiskManager.new dbFile = .ok dm)
    (calls : List PoolCall)
    (hcalls : Along (step B order) Requests [] calls (.new n dm)) :
    Throughout (step B order) (FlushesDurably B order) [] calls (.new n dm) := by
  let J : List PoolCall → Session → Prop := fun hist s => s.Coherent n hist ∧
    s.pool.Durable ∧ ∀ c rest p f, hist = c :: rest → c.Flushes p →
      s.pool.pageTable.lookup p = some f → (s.pool.frames f).isDirty = false
  have hstep : ∀ hist c s s', J hist s → Requests hist c s →
      step B order c s = some s' → J (c :: hist) s' := by
    rintro hist c s s' ⟨hcoh, hdur, -⟩ hc hs'
    refine ⟨step_coherent hcoh hc hs', step_durable hdur hcoh hc hs', ?_⟩
    intro c' rest p f heq hflushes hp
    obtain ⟨rfl, rfl⟩ := List.cons.inj heq
    exact step_flush_clean hcoh.held hflushes hs' hp
  have hinit : J [] (.new n dm) := by
    refine ⟨new_coherent_of_new hf hnew, BufferPoolManager.new_durable n dm, ?_⟩
    exact fun c rest p f heq => absurd heq (List.cons_ne_nil c rest).symm
  apply (throughout_of_along hstep hinit hcalls).mono
  rintro hist s ⟨hcoh, hdur, hflushed⟩
  have hdisk : ∀ p f, s.pool.pageTable.lookup p = some f →
      (s.pool.frames f).isDirty = false → s.OnDisk p f := by
    intro p f hp hclean buf
    obtain ⟨dm', hread, -⟩ :=
      DiskManager.readPage_spec hcoh.pool.sized hcoh.pool.packed (hdur p f hp hclean) buf
    exact ⟨dm', hread⟩
  exact ⟨hdisk, fun c rest p f heq hc hp => hdisk p f hp (hflushed c rest p f heq hc hp),
    fun _ _ _ hc hs' => step_flush_samePages hc hs'⟩

/-- Page 0, which was evicted and loaded again, is written anew, and everything
is flushed. -/
def reflushCalls : List PoolCall :=
  reloadCalls ++ [.dropGuard ⟨.read, 0, 1⟩, .checkPage .write 0,
    .write ⟨.write, 0, 1⟩ (.ofFn pageSize fun _ => 5), .flushAllPages]

theorem reflushCalls_flush :
    ∃ s, run (step ⟨true⟩ .listed) reflushCalls (.new 2 (.fresh DiskManager.blankFile)) = some s ∧
      ((s.pool.frames 0).data.toList.head?, (s.pool.frames 1).data.toList.head?) =
        (some 2, some 5) ∧
      s.OnDisk 1 0 ∧ s.OnDisk 0 1 := by
  have hrun : (run (step ⟨true⟩ .listed) reflushCalls
      (.new 2 (.fresh DiskManager.blankFile))).map
      (fun s => ((s.pool.pageTable.lookup 1, s.pool.pageTable.lookup 0),
        ((s.pool.frames 0).data.toList.head?, (s.pool.frames 1).data.toList.head?))) =
      some ((some 0, some 1), (some 2, some 5)) := by
    decide +kernel
  obtain ⟨s, hs, hstate⟩ := Option.map_eq_some_iff.mp hrun
  obtain ⟨htable, hbytes⟩ := Prod.mk.inj hstate
  obtain ⟨h₁, h₀⟩ := Prod.mk.inj htable
  have hcalls : Along (step ⟨true⟩ .listed) Requests [] reflushCalls
      (.new 2 (.fresh DiskManager.blankFile)) := by
    decide +kernel
  have hdurable := (flushesDurably_throughout ⟨true⟩ .listed 2 DiskManager.blankFile
    (fun _ => rfl) _ (DiskManager.new_eq_fresh fun _ => rfl) _ hcalls).last hs
  exact ⟨s, hs, hbytes, hdurable.flushed .flushAllPages _ 1 0 rfl trivial h₁,
    hdurable.flushed .flushAllPages _ 0 1 rfl trivial h₀⟩

end Session

end StorageEngine
