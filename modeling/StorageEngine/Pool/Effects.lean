import StorageEngine.Pool.BufferPool

/-!
What each operation of the pool does when it completes, said once: the
effect of every building block is an explicit update of the pool, and the
invariants of the pool are derived from these lemmas alone.
-/

namespace StorageEngine

namespace BufferPoolManager

variable {B : Build} {order : HashOrder} {bpm bpm' : BufferPoolManager}

@[simp] theorem setFrame_frames (bpm : BufferPoolManager) (f : FrameId) (h : FrameHeader) :
    (bpm.setFrame f h).frames = Function.update bpm.frames f h := rfl

@[simp] theorem setFrame_numFrames (bpm : BufferPoolManager) (f : FrameId) (h : FrameHeader) :
    (bpm.setFrame f h).numFrames = bpm.numFrames := rfl

@[simp] theorem setFrame_nextPageId (bpm : BufferPoolManager) (f : FrameId)
    (h : FrameHeader) : (bpm.setFrame f h).nextPageId = bpm.nextPageId := rfl

@[simp] theorem setFrame_arcReplacer (bpm : BufferPoolManager) (f : FrameId)
    (h : FrameHeader) : (bpm.setFrame f h).arcReplacer = bpm.arcReplacer := rfl

@[simp] theorem setFrame_diskManager (bpm : BufferPoolManager) (f : FrameId)
    (h : FrameHeader) : (bpm.setFrame f h).diskManager = bpm.diskManager := rfl

@[simp] theorem setFrame_freeFrames (bpm : BufferPoolManager) (f : FrameId)
    (h : FrameHeader) : (bpm.setFrame f h).freeFrames = bpm.freeFrames := rfl

@[simp] theorem setFrame_pageTable (bpm : BufferPoolManager) (f : FrameId) (h : FrameHeader) :
    (bpm.setFrame f h).pageTable = bpm.pageTable := rfl

theorem frame_eq_ok {f : FrameId} {h : FrameHeader} :
    bpm.frame f = .ok h ↔ f < bpm.numFrames ∧ h = bpm.frames f := by
  rw [frame]
  split
  · next hlt => simp [hlt, eq_comm]
  · next hlt => simp [hlt]

theorem request_eq_ok {type : DiskRequestType} {p : PageId} {data : Page}
    {reply : Option Page} : bpm.request type p data = .ok (reply, bpm') ↔
      ∃ dm, bpm.diskManager.serve ⟨type, p, data⟩ = .ok (reply, dm) ∧
        bpm' = { bpm with diskManager := dm } := by
  rw [request, bind_eq_ok]
  constructor
  · rintro ⟨⟨reply', dm⟩, hserve, h⟩
    obtain ⟨rfl, rfl⟩ := Prod.mk.inj (Except.ok.inj h)
    exact ⟨dm, hserve, rfl⟩
  · rintro ⟨dm, hserve, rfl⟩
    exact ⟨(reply, dm), hserve, rfl⟩

/-- The pool with one more pin on a frame. -/
def pinned (bpm : BufferPoolManager) (f : FrameId) (r : ArcReplacer) : BufferPoolManager :=
  { bpm.setFrame f { bpm.frames f with pinCount := (bpm.frames f).pinCount + 1 } with
    arcReplacer := r }

theorem newGuard_eq_ok {kind : GuardKind} {p : PageId} {f : FrameId} {g : Guard} :
    bpm.newGuard B kind p f = .ok (g, bpm') ↔
      ∃ r, bpm.arcReplacer.recordAccess B f p = .ok r ∧ g = ⟨kind, p, f⟩ ∧
        bpm' = bpm.pinned f r := by
  rw [newGuard, bind_eq_ok]
  constructor
  · rintro ⟨r, hr, h⟩
    obtain ⟨rfl, rfl⟩ := Prod.mk.inj (Except.ok.inj h)
    exact ⟨r, hr, rfl, rfl⟩
  · rintro ⟨r, hr, rfl, rfl⟩
    exact ⟨r, hr, rfl⟩

/-- The pool with one pin less on a frame whose count stays away from zero. -/
def unpinned (bpm : BufferPoolManager) (f : FrameId) : BufferPoolManager :=
  bpm.setFrame f { bpm.frames f with pinCount := (bpm.frames f).pinCount - 1 }

theorem dropGuard_cases {g : Guard} (h : bpm.dropGuard B g = .ok bpm') :
    ((bpm.frames g.frameId).pinCount ≠ 1 ∧ bpm' = bpm.unpinned g.frameId) ∨
    ((bpm.frames g.frameId).pinCount = 1 ∧
      ∃ r, bpm.arcReplacer.setEvictable B g.frameId = .ok r ∧
        bpm' = { bpm.unpinned g.frameId with arcReplacer := r }) := by
  simp only [dropGuard] at h
  split at h
  · next hzero =>
      obtain ⟨r, hr, h⟩ := bind_eq_ok.mp h
      obtain rfl := Except.ok.inj h
      exact Or.inr ⟨by omega, r, hr, rfl⟩
  · next hzero =>
      obtain rfl := Except.ok.inj h
      exact Or.inl ⟨by omega, rfl⟩

/-- A flush writes nothing on a clean frame. -/
theorem flushGuard_cases {g : Guard} {flushed : Bool}
    (h : bpm.flushGuard g = .ok (flushed, bpm')) :
    ((bpm.frames g.frameId).isDirty = false ∧ flushed = false ∧ bpm' = bpm) ∨
    ((bpm.frames g.frameId).isDirty = true ∧ flushed = true ∧ ∃ reply dm,
      bpm.diskManager.serve ⟨.write, g.pageId, (bpm.frames g.frameId).data⟩ =
        .ok (reply, dm) ∧
      bpm' = { bpm.setFrame g.frameId { bpm.frames g.frameId with isDirty := false } with
        diskManager := dm }) := by
  simp only [flushGuard] at h
  split at h
  · next hclean =>
      obtain ⟨rfl, rfl⟩ := Prod.mk.inj (Except.ok.inj h)
      exact Or.inl ⟨by simpa using hclean, rfl, rfl⟩
  · next hdirty =>
      obtain ⟨⟨reply, bpm₁⟩, hreq, h⟩ := bind_eq_ok.mp h
      obtain ⟨dm, hserve, rfl⟩ := request_eq_ok.mp hreq
      obtain ⟨rfl, rfl⟩ := Prod.mk.inj (Except.ok.inj h)
      exact Or.inr ⟨by simpa using hdirty, rfl, reply, dm, hserve, rfl⟩

theorem newPage_eq_ok {p : PageId} : bpm.newPage = .ok (p, bpm') ↔
    p = bpm.nextPageId ∧ ∃ reply dm,
      bpm.diskManager.serve ⟨.write, p, .zero pageSize⟩ = .ok (reply, dm) ∧
      bpm' = { bpm with nextPageId := p + 1, diskManager := dm } := by
  simp only [newPage, bind_eq_ok]
  constructor
  · rintro ⟨⟨reply, bpm₁⟩, hreq, h⟩
    obtain ⟨dm, hserve, rfl⟩ := request_eq_ok.mp hreq
    obtain ⟨rfl, rfl⟩ := Prod.mk.inj (Except.ok.inj h)
    exact ⟨rfl, reply, dm, hserve, rfl⟩
  · rintro ⟨rfl, reply, dm, hserve, rfl⟩
    exact ⟨(reply, _), request_eq_ok.mpr ⟨dm, hserve, rfl⟩, rfl⟩

/-- The pool after a page was unmapped from a frame that goes back to the
free list, blank. -/
def released (bpm : BufferPoolManager) (p : PageId) (f : FrameId) (r : ArcReplacer)
    (dm : DiskManager) : BufferPoolManager :=
  { bpm with
    arcReplacer := r
    diskManager := dm
    frames := Function.update bpm.frames f (bpm.frames f).reset
    freeFrames := f :: bpm.freeFrames
    pageTable := bpm.pageTable.erase p }

theorem deletePage_cases {p : PageId} (h : bpm.deletePage p = .ok bpm') :
    (bpm.pageTable.lookup p = none ∧ bpm' = bpm) ∨
    ∃ f, bpm.pageTable.lookup p = some f ∧ f < bpm.numFrames ∧
      ((bpm.frames f).pinCount ≠ 0 ∧ bpm' = bpm ∨
        (bpm.frames f).pinCount = 0 ∧ ∃ reply dm,
          bpm.diskManager.serve ⟨.delete, p, .zero pageSize⟩ = .ok (reply, dm) ∧
          bpm' = bpm.released p f (bpm.arcReplacer.remove f) dm) := by
  simp only [deletePage] at h
  split at h
  · next hnone =>
      obtain rfl := Except.ok.inj h
      exact Or.inl ⟨hnone, rfl⟩
  next f hsome =>
  obtain ⟨header, hframe, h⟩ := bind_eq_ok.mp h
  obtain ⟨hlt, rfl⟩ := frame_eq_ok.mp hframe
  refine Or.inr ⟨f, hsome, hlt, ?_⟩
  split at h
  · next hpin =>
      obtain rfl := Except.ok.inj h
      exact Or.inl ⟨hpin, rfl⟩
  · next hpin =>
      obtain ⟨⟨reply, bpm₁⟩, hreq, h⟩ := bind_eq_ok.mp h
      obtain ⟨dm, hserve, rfl⟩ := request_eq_ok.mp hreq
      obtain rfl := Except.ok.inj h
      exact Or.inr ⟨not_not.mp hpin, reply, dm, hserve, rfl⟩

theorem evictFrame_cases (h : bpm.evictFrame B order = .ok bpm') :
    ∃ f p r q reply dm, bpm.arcReplacer.evict B = .ok (some f, r) ∧
      ArcReplacer.Evicted B bpm.arcReplacer f p r ∧ f < bpm.numFrames ∧
      bpm.pageTable.lookup q = some f ∧
      bpm.diskManager.serve ⟨.write, q, (bpm.frames f).data⟩ = .ok (reply, dm) ∧
      bpm' = bpm.released q f r dm := by
  simp only [evictFrame] at h
  obtain ⟨⟨evicted, r⟩, hevict, h⟩ := bind_eq_ok.mp h
  obtain ⟨f, hf, h⟩ := bind_eq_ok.mp h
  obtain rfl := orPanic_eq_ok.mp hf
  obtain ⟨header, hframe, h⟩ := bind_eq_ok.mp h
  obtain ⟨hlt, rfl⟩ := frame_eq_ok.mp hframe
  obtain ⟨⟨q, f'⟩, hfind, h⟩ := bind_eq_ok.mp h
  rw [orPanic_eq_ok, List.find?_eq_some_iff_append] at hfind
  obtain ⟨hff, as, bs, hfind, -⟩ := hfind
  obtain rfl : f' = f := by simpa using hff
  have hmem : (q, f') ∈ bpm.pageTable.entries.map fun e => (e.1, e.2) :=
    (order.perm bpm.pageTable).mem_iff.mp (by rw [hfind]; simp)
  obtain ⟨⟨q', f''⟩, hent, heq⟩ := List.mem_map.mp hmem
  obtain ⟨rfl, rfl⟩ := Prod.mk.inj heq
  have hlook : bpm.pageTable.lookup q' = some f'' := AList.mem_lookup_iff.mpr hent
  obtain ⟨⟨reply, bpm₁⟩, hreq, h⟩ := bind_eq_ok.mp h
  obtain ⟨dm, hserve, rfl⟩ := request_eq_ok.mp hreq
  obtain rfl := Except.ok.inj h
  rcases ArcReplacer.evict_cases hevict with ⟨hnone, -⟩ | ⟨f₁, p, hsome, hev⟩
  · simp at hnone
  · obtain rfl := Option.some.inj hsome
    exact ⟨_, p, r, q', reply, dm, hevict, hev, hlt, hlook, hserve, rfl⟩

/-- The pool after a page was read into a free frame. -/
def loaded (bpm : BufferPoolManager) (p : PageId) (f : FrameId) (rest : List FrameId)
    (data : Page) (dm : DiskManager) : BufferPoolManager :=
  { bpm with
    diskManager := dm
    frames := Function.update bpm.frames f { bpm.frames f with data }
    freeFrames := rest
    pageTable := bpm.pageTable.insert p f }

theorem loadPage_cases {kind : GuardKind} {p : PageId} {g : Guard}
    (h : bpm.loadPage B kind p = .ok (g, bpm')) :
    ∃ f rest data dm r, bpm.freeFrames = f :: rest ∧ f < bpm.numFrames ∧
      bpm.diskManager.serve ⟨.read, p, .zero pageSize⟩ = .ok (some data, dm) ∧
      bpm.arcReplacer.recordAccess B f p = .ok r ∧ g = ⟨kind, p, f⟩ ∧
      bpm' = (bpm.loaded p f rest data dm).pinned f r := by
  simp only [loadPage] at h
  split at h
  · simp at h
  next f rest hfree =>
  obtain ⟨⟨reply, bpm₁⟩, hreq, h⟩ := bind_eq_ok.mp h
  obtain ⟨dm, hserve, rfl⟩ := request_eq_ok.mp hreq
  obtain ⟨header, hframe, h⟩ := bind_eq_ok.mp h
  obtain ⟨hlt, rfl⟩ := frame_eq_ok.mp hframe
  obtain ⟨data, hdata, h⟩ := bind_eq_ok.mp h
  obtain rfl := orPanic_eq_ok.mp hdata
  obtain ⟨r, hrec, hg, rfl⟩ := newGuard_eq_ok.mp h
  exact ⟨f, rest, data, dm, r, hfree, hlt, hserve, hrec, hg, rfl⟩

/-- The three ways a page is obtained: it is resident, or a frame is free,
or one is evicted first. -/
theorem checkPage_cases {kind : GuardKind} {p : PageId} {g : Guard}
    (h : bpm.checkPage B order kind p = .ok (g, bpm')) :
    (∃ f r, bpm.pageTable.lookup p = some f ∧ f < bpm.numFrames ∧
      bpm.arcReplacer.recordAccess B f p = .ok r ∧ g = ⟨kind, p, f⟩ ∧
      bpm' = bpm.pinned f r) ∨
    (bpm.pageTable.lookup p = none ∧ bpm.freeFrames ≠ [] ∧
      bpm.loadPage B kind p = .ok (g, bpm')) ∨
    (bpm.pageTable.lookup p = none ∧ bpm.freeFrames = [] ∧
      ∃ bpm₁, bpm.evictFrame B order = .ok bpm₁ ∧ bpm₁.loadPage B kind p = .ok (g, bpm')) := by
  simp only [checkPage] at h
  split at h
  · next f hsome =>
      obtain ⟨header, hframe, h⟩ := bind_eq_ok.mp h
      obtain ⟨hlt, rfl⟩ := frame_eq_ok.mp hframe
      obtain ⟨r, hr, hg, rfl⟩ := newGuard_eq_ok.mp h
      exact Or.inl ⟨f, r, hsome, hlt, hr, hg, rfl⟩
  · next hnone =>
      split at h
      · next hpos => exact Or.inr (Or.inl ⟨hnone, List.length_pos_iff.mp hpos, h⟩)
      · next hpos =>
          obtain ⟨bpm₁, hevict, h⟩ := bind_eq_ok.mp h
          have hnil : bpm.freeFrames = [] := by
            rw [← List.length_eq_zero_iff]
            omega
          exact Or.inr (Or.inr ⟨hnone, hnil, bpm₁, hevict, h⟩)

/-- The pool after a frame was flushed through a guard of its own. -/
def touched (bpm : BufferPoolManager) (f : FrameId) (r : ArcReplacer) (dm : DiskManager) :
    BufferPoolManager :=
  { bpm.setFrame f { bpm.frames f with isDirty := false } with
    arcReplacer := r, diskManager := dm }

/-- A page flushed through a guard of its own: the access is recorded, the
pin count ends as it began, and a frame nobody pins is marked evictable. -/
theorem flushFrame_cases {p : PageId} {f : FrameId} {flushed : Bool}
    (h : bpm.flushFrame B p f = .ok (flushed, bpm')) :
    f < bpm.numFrames ∧ ∃ r r' dm, bpm.arcReplacer.recordAccess B f p = .ok r ∧
      ((bpm.frames f).pinCount ≠ 0 ∧ r' = r ∨
        (bpm.frames f).pinCount = 0 ∧ r.setEvictable B f = .ok r') ∧
      ((bpm.frames f).isDirty = false ∧ flushed = false ∧ dm = bpm.diskManager ∨
        (bpm.frames f).isDirty = true ∧ flushed = true ∧ ∃ reply,
          bpm.diskManager.serve ⟨.write, p, (bpm.frames f).data⟩ = .ok (reply, dm)) ∧
      bpm' = bpm.touched f r' dm := by
  simp only [flushFrame] at h
  obtain ⟨header, hframe, h⟩ := bind_eq_ok.mp h
  obtain ⟨hlt, rfl⟩ := frame_eq_ok.mp hframe
  obtain ⟨⟨g, bpm₁⟩, hguard, h⟩ := bind_eq_ok.mp h
  obtain ⟨r, hr, rfl, rfl⟩ := newGuard_eq_ok.mp hguard
  obtain ⟨⟨flushed', bpm₂⟩, hflush, h⟩ := bind_eq_ok.mp h
  obtain ⟨bpm₃, hdrop, h⟩ := bind_eq_ok.mp h
  obtain ⟨rfl, rfl⟩ := Prod.mk.inj (Except.ok.inj h)
  -- between pinning and unpinning the frame, only its dirty flag changed
  obtain ⟨dm, hdisk, rfl⟩ : ∃ dm,
      ((bpm.frames f).isDirty = false ∧ flushed' = false ∧ dm = bpm.diskManager ∨
        (bpm.frames f).isDirty = true ∧ flushed' = true ∧ ∃ reply,
          bpm.diskManager.serve ⟨.write, p, (bpm.frames f).data⟩ = .ok (reply, dm)) ∧
      bpm₂ = { bpm with
        arcReplacer := r
        diskManager := dm
        frames := Function.update bpm.frames f { bpm.frames f with
          isDirty := false, pinCount := (bpm.frames f).pinCount + 1 } } := by
    rcases flushGuard_cases hflush with ⟨hclean, rfl, rfl⟩ | ⟨hdirty, rfl, reply, dm, hserve, rfl⟩
    · have hclean' : (bpm.frames f).isDirty = false := by simpa [pinned] using hclean
      exact ⟨_, Or.inl ⟨hclean', rfl, rfl⟩, by simp [pinned, setFrame, ← hclean']⟩
    · have hdirty' : (bpm.frames f).isDirty = true := by simpa [pinned] using hdirty
      have hserve' : bpm.diskManager.serve ⟨.write, p, (bpm.frames f).data⟩ =
          .ok (reply, dm) := by
        simpa [pinned] using hserve
      exact ⟨dm, Or.inr ⟨hdirty', rfl, reply, hserve'⟩, by simp [pinned, setFrame]⟩
  rcases dropGuard_cases hdrop with ⟨hne, rfl⟩ | ⟨heq, r', hr', rfl⟩
  · have hne' : (bpm.frames f).pinCount ≠ 0 := by
      intro h
      simp [h] at hne
    exact ⟨hlt, r, r, dm, hr, Or.inl ⟨hne', rfl⟩, hdisk, by
      simp [touched, unpinned, setFrame]⟩
  · have heq' : (bpm.frames f).pinCount = 0 := by
      have h : (bpm.frames f).pinCount + 1 = 1 := by simpa using heq
      omega
    exact ⟨hlt, r, r', dm, hr, Or.inr ⟨heq', hr'⟩, hdisk, by
      simp [touched, unpinned, setFrame]⟩

/-! ### Pin counts -/

theorem pinned_pinCount (bpm : BufferPoolManager) (f : FrameId) (r : ArcReplacer)
    (f' : FrameId) : ((bpm.pinned f r).frames f').pinCount =
      (bpm.frames f').pinCount + if f = f' then 1 else 0 := by
  show (Function.update bpm.frames f _ f').pinCount = _
  by_cases hf : f' = f
  · subst f'
    simp
  · rw [Function.update_of_ne hf, if_neg (Ne.symm hf), add_zero]

theorem unpinned_pinCount (bpm : BufferPoolManager) (f f' : FrameId) :
    ((bpm.unpinned f).frames f').pinCount =
      (bpm.frames f').pinCount - if f = f' then 1 else 0 := by
  show (Function.update bpm.frames f _ f').pinCount = _
  by_cases hf : f' = f
  · subst f'
    simp
  · rw [Function.update_of_ne hf, if_neg (Ne.symm hf), sub_zero]

/-- A header replaced by one that agrees with it in a field. -/
theorem update_field {α : Type} (field : FrameHeader → α) {frames : FrameId → FrameHeader}
    {f : FrameId} {header : FrameHeader} (h : field header = field (frames f)) (f' : FrameId) :
    field (Function.update frames f header f') = field (frames f') := by
  by_cases hf : f' = f
  · subst f'
    rwa [Function.update_self]
  · rw [Function.update_of_ne hf]

theorem released_pinCount (bpm : BufferPoolManager) (p : PageId) (f : FrameId) (r : ArcReplacer)
    (dm : DiskManager) (f' : FrameId) : ((bpm.released p f r dm).frames f').pinCount =
      if f' = f then 0 else (bpm.frames f').pinCount := by
  show (Function.update bpm.frames f _ f').pinCount = _
  split
  · next hf =>
      subst f'
      rw [Function.update_self]
      rfl
  · next hf => rw [Function.update_of_ne hf]

theorem loaded_pinCount (bpm : BufferPoolManager) (p : PageId) (f : FrameId)
    (rest : List FrameId) (data : Page) (dm : DiskManager) (f' : FrameId) :
    ((bpm.loaded p f rest data dm).frames f').pinCount = (bpm.frames f').pinCount :=
  update_field FrameHeader.pinCount (by rfl) f'

theorem touched_pinCount (bpm : BufferPoolManager) (f : FrameId) (r : ArcReplacer)
    (dm : DiskManager) (f' : FrameId) :
    ((bpm.touched f r dm).frames f').pinCount = (bpm.frames f').pinCount :=
  update_field FrameHeader.pinCount (by rfl) f'

theorem dataMut_store_pinCount (bpm : BufferPoolManager) (g : Guard) (data : Page)
    (f : FrameId) : (((bpm.dataMut g).store g data).frames f).pinCount =
      (bpm.frames f).pinCount :=
  (update_field FrameHeader.pinCount (by rfl) f).trans
    (update_field FrameHeader.pinCount (by rfl) f)

theorem flushGuard_pinCount {g : Guard} {flushed : Bool}
    (h : bpm.flushGuard g = .ok (flushed, bpm')) (f : FrameId) :
    (bpm'.frames f).pinCount = (bpm.frames f).pinCount := by
  rcases flushGuard_cases h with ⟨-, -, rfl⟩ | ⟨-, -, reply, dm, -, rfl⟩
  · rfl
  · exact update_field FrameHeader.pinCount (by rfl) f

theorem flushFrame_pinCount {p : PageId} {f : FrameId} {flushed : Bool}
    (h : bpm.flushFrame B p f = .ok (flushed, bpm')) (f' : FrameId) :
    (bpm'.frames f').pinCount = (bpm.frames f').pinCount := by
  obtain ⟨-, r, r', dm, -, -, -, rfl⟩ := flushFrame_cases h
  exact bpm.touched_pinCount f r' dm f'

theorem dropGuard_pinCount {g : Guard} (h : bpm.dropGuard B g = .ok bpm') (f : FrameId) :
    (bpm'.frames f).pinCount = (bpm.frames f).pinCount - if g.frameId = f then 1 else 0 := by
  rcases dropGuard_cases h with ⟨-, rfl⟩ | ⟨-, r, -, rfl⟩
  · exact unpinned_pinCount bpm g.frameId f
  · exact unpinned_pinCount bpm g.frameId f

theorem flushPage_cases {p : PageId} {flushed : Bool}
    (h : bpm.flushPage B p = .ok (flushed, bpm')) :
    (bpm.pageTable.lookup p = none ∧ flushed = false ∧ bpm' = bpm) ∨
    ∃ f, bpm.pageTable.lookup p = some f ∧ bpm.flushFrame B p f = .ok (flushed, bpm') := by
  rw [flushPage] at h
  split at h
  · next f hsome => exact Or.inr ⟨f, hsome, h⟩
  · next hnone =>
      obtain ⟨rfl, rfl⟩ := Prod.mk.inj (Except.ok.inj h)
      exact Or.inl ⟨hnone, rfl, rfl⟩

/-- What every flush of a mapped page keeps, the loop of `flush_all_pages`
keeps. No flush changes the page table. -/
theorem flushEntries_induction {J : BufferPoolManager → Prop}
    (hstep : ∀ bpm bpm' p f flushed, J bpm → bpm.pageTable.lookup p = some f →
      bpm.flushFrame B p f = .ok (flushed, bpm') → J bpm') {entries : List (PageId × FrameId)} :
    ∀ {bpm bpm' : BufferPoolManager},
      (∀ e ∈ entries, bpm.pageTable.lookup e.1 = some e.2) → J bpm →
      bpm.flushEntries B entries = .ok bpm' → J bpm' := by
  induction entries with
  | nil =>
      intro bpm bpm' _ hJ h
      obtain rfl := Except.ok.inj h
      exact hJ
  | cons e rest ih =>
      intro bpm bpm' hmapped hJ h
      obtain ⟨p, f⟩ := e
      simp only [flushEntries] at h
      obtain ⟨⟨flushed, bpm₁⟩, hflush, h⟩ := bind_eq_ok.mp h
      obtain ⟨-, r, r', dm, -, -, -, heq⟩ := flushFrame_cases hflush
      refine ih ?_ (hstep bpm bpm₁ p f flushed hJ (hmapped (p, f) (by simp)) hflush) h
      intro e he
      rw [heq]
      exact hmapped e (by simp [he])

theorem flushAllPages_induction {J : BufferPoolManager → Prop}
    (hstep : ∀ bpm bpm' p f flushed, J bpm → bpm.pageTable.lookup p = some f →
      bpm.flushFrame B p f = .ok (flushed, bpm') → J bpm') {flushed : Bool} (hJ : J bpm)
    (h : bpm.flushAllPages B order = .ok (flushed, bpm')) : J bpm' := by
  rw [flushAllPages] at h
  split at h
  · obtain ⟨-, rfl⟩ := Prod.mk.inj (Except.ok.inj h)
    exact hJ
  · obtain ⟨bpm₁, hloop, h⟩ := bind_eq_ok.mp h
    obtain ⟨-, rfl⟩ := Prod.mk.inj (Except.ok.inj h)
    refine flushEntries_induction hstep ?_ hJ hloop
    intro e he
    obtain ⟨⟨p, f⟩, hent, rfl⟩ := List.mem_map.mp ((order.perm _).mem_iff.mp he)
    exact AList.mem_lookup_iff.mpr hent

end BufferPoolManager

end StorageEngine
