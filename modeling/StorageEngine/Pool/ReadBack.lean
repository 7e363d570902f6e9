import StorageEngine.Pool.Coherence

/-!
What a session reads back.

A session that only asks for pages it created and did not delete, and asks
for one that is not resident only while it holds no guard, sees in every
guard the bytes it last wrote to the page.
-/

namespace StorageEngine

open Lib

/-- The bytes a page has after the calls of a history, latest first. -/
def written : List PoolCall → PageId → Page
  | [], _ => .zero pageSize
  | .write guard data :: hist, p =>
      if p = guard.pageId then data else written hist p
  | _ :: hist, p => written hist p

/-- The number of pages created. -/
def created : List PoolCall → ℕ
  | [] => 0
  | .newPage :: hist => created hist + 1
  | _ :: hist => created hist

namespace Session

instance (hist : List PoolCall) (p : PageId) : Decidable (PoolCall.deletePage p ∈ hist) :=
  let deletes : PoolCall → Option PageId
    | .deletePage q => some q
    | _ => none
  decidable_of_iff (p ∈ hist.filterMap deletes) (by
    rw [List.mem_filterMap]
    constructor
    · rintro ⟨call, hmem, hp⟩
      cases call <;> simp_all [deletes]
    · exact fun hmem => ⟨_, hmem, rfl⟩)

/-- The page was returned by `new_page` and not passed to `delete_page`. -/
def Requestable (hist : List PoolCall) (p : PageId) : Prop :=
  p.toNat < created hist ∧ PoolCall.deletePage p ∉ hist

instance (hist : List PoolCall) (p : PageId) : Decidable (Requestable hist p) :=
  inferInstanceAs (Decidable (_ ∧ _))

/-- At most 2^32 - 1 pages are created, and a check is for a page that may be
requested, one that is not resident while no guard is live. -/
def Requests (hist : List PoolCall) (c : PoolCall) (s : Session) : Prop :=
  (c = .newPage → created hist + 1 < 2 ^ 32) ∧
    ∀ kind p, c = .checkPage kind p → Requestable hist p ∧
      (s.pool.pageTable.lookup p ≠ none ∨ s.guards = [])

instance (hist : List PoolCall) : ∀ (c : PoolCall) (s : Session), Decidable (Requests hist c s)
  | .newPage, s => decidable_of_iff (created hist + 1 < 2 ^ 32) (by simp [Requests])
  | .checkPage kind p, s =>
      decidable_of_iff (Requestable hist p ∧ (s.pool.pageTable.lookup p ≠ none ∨ s.guards = []))
        (by simp [Requests])
  | .write guard data, s => isTrue (by simp [Requests])
  | .flushGuard guard, s => isTrue (by simp [Requests])
  | .dropGuard guard, s => isTrue (by simp [Requests])
  | .flushPage p, s => isTrue (by simp [Requests])
  | .flushAllPages, s => isTrue (by simp [Requests])
  | .deletePage p, s => isTrue (by simp [Requests])

/-- Every guard shows the bytes last written to its page. -/
def ReadsBack (hist : List PoolCall) (s : Session) : Prop :=
  ∀ g ∈ s.guards, s.pool.data g = written hist g.pageId

/-- A guard is on the frame its page is mapped to. -/
def Held (s : Session) : Prop :=
  ∀ g ∈ s.guards, s.pool.pageTable.lookup g.pageId = some g.frameId

/-- The invariant behind `ReadsBack`. -/
structure Coherent (n : ℕ) (hist : List PoolCall) (s : Session) : Prop where
  pool : s.pool.Coherent n (written hist) (Requestable hist)
  counted : s.Counted
  held : s.Held
  next : s.pool.nextPageId.toNat = created hist
  known : ∀ p f, s.pool.pageTable.lookup p = some f → p.toNat < created hist
  blank : ∀ p : PageId, created hist ≤ p.toNat → written hist p = .zero pageSize

section ReadBack

variable {B : Build} {order : HashOrder} {n : ℕ} {hist : List PoolCall} {s s' : Session}

theorem Coherent.readsBack (h : s.Coherent n hist) : s.ReadsBack hist :=
  fun g hg => h.pool.resident g.pageId g.frameId (h.held g hg)

theorem new_coherent {dm : DiskManager} (hs : dm.Sized) (hp : dm.Packed) :
    (new n dm).Coherent n [] where
  pool := by
    have h := BufferPoolManager.new_coherent (n := n) hs hp
    exact ⟨h.partition, h.sized, h.packed, h.resident,
      fun p hp => absurd hp.1 (Nat.not_lt_zero _)⟩
  counted := fun _ => rfl
  held := fun _ hg => absurd hg List.not_mem_nil
  next := rfl
  known := fun p f hp => absurd hp (by simp [new, BufferPoolManager.new])
  blank := fun _ _ => rfl

theorem new_coherent_of_new {dbFile : DbFile} (hf : dbFile.NoFaults) {dm : DiskManager}
    (hnew : DiskManager.new dbFile = .ok dm) : (new n dm).Coherent n [] := by
  obtain rfl : DiskManager.fresh dbFile = dm := by
    simpa [DiskManager.new_eq_fresh hf] using hnew
  obtain ⟨hs, hp, -⟩ := DiskManager.fresh_tracks hf
  exact new_coherent hs hp

/-! ### Calls that change no page -/

/-- What a call that creates, writes and deletes nothing has to keep. -/
theorem Coherent.congr {c : PoolCall} {pool' : BufferPoolManager} {guards' : List Guard}
    (h : s.Coherent n hist) (hwritten : written (c :: hist) = written hist)
    (hcreated : created (c :: hist) = created hist)
    (hpool : pool'.Coherent n (written hist) (Requestable hist))
    (hcounted : Counted ⟨pool', guards'⟩) (hheld : Held ⟨pool', guards'⟩)
    (hnext : pool'.nextPageId = s.pool.nextPageId)
    (hknown : ∀ p f, pool'.pageTable.lookup p = some f → p.toNat < created hist) :
    Coherent n (c :: hist) ⟨pool', guards'⟩ where
  pool := by
    refine ⟨hpool.partition, hpool.sized, hpool.packed, ?_, ?_⟩
    · rw [hwritten]
      exact hpool.resident
    · rintro p ⟨hp, hnot⟩
      rw [hcreated] at hp
      rw [hwritten]
      exact hpool.onDisk p ⟨hp, fun hmem => hnot (List.mem_cons_of_mem c hmem)⟩
  counted := hcounted
  held := hheld
  next := by
    rw [hcreated]
    exact (congrArg UInt32.toNat hnext).trans h.next
  known := by
    rw [hcreated]
    exact hknown
  blank := by
    rw [hcreated, hwritten]
    exact h.blank

theorem Coherent.flushFrame {pool' : BufferPoolManager} {p : PageId}
    {f : FrameId} {flushed : Bool} (h : s.Coherent n hist)
    (hp : s.pool.pageTable.lookup p = some f)
    (hflush : s.pool.flushFrame B p f = .ok (flushed, pool')) :
    Coherent n hist ⟨pool', s.guards⟩ := by
  have hpool := h.pool.flushFrame hp hflush
  have hcounted := h.counted.flushFrame hflush
  obtain ⟨-, r, r', dm, -, -, -, rfl⟩ := BufferPoolManager.flushFrame_cases hflush
  exact ⟨hpool, hcounted, h.held, h.next, h.known, h.blank⟩

/-! ### Checks that evict no pinned page -/

section CheckPage

variable {kind : GuardKind} {p : PageId} {g : Guard} {pool' : BufferPoolManager}
  (hvictim : s.pool.pageTable.lookup p = none → s.pool.freeFrames = [] →
    ∀ f r, s.pool.arcReplacer.evict B = .ok (some f, r) → ∀ g ∈ s.guards, g.frameId ≠ f)
  (hcheck : s.pool.checkPage B order kind p = .ok (g, pool'))

include hvictim hcheck

theorem Counted.checkPage (h : s.Counted) : Counted ⟨pool', g :: s.guards⟩ := by
  rcases BufferPoolManager.checkPage_cases hcheck with ⟨f, r, -, -, -, rfl, rfl⟩ |
    ⟨-, -, hload⟩ | ⟨hnone, hfree, pool₁, hevict, hload⟩
  · exact Counted.pinned h kind p f r
  · exact Counted.loadPage h hload
  · obtain ⟨f, p', r, q, reply, dm, hr, -, -, -, -, rfl⟩ :=
      BufferPoolManager.evictFrame_cases hevict
    have hzero := h.pinCount_eq_zero (hvictim hnone hfree f r hr)
    exact Counted.loadPage (Counted.released h hzero q r dm) hload

theorem Held.checkPage (h : s.Held) : Held ⟨pool', g :: s.guards⟩ := by
  obtain ⟨hgp, hlook, hkeep⟩ := BufferPoolManager.checkPage_lookup hcheck
  intro g' hg'
  rcases List.mem_cons.mp hg' with rfl | hg'
  · rw [hgp]
    exact hlook
  rcases hkeep g'.pageId g'.frameId (h g' hg') with hkept | ⟨hnone, hfree, r, hr⟩
  · exact hkept
  · exact absurd rfl (hvictim hnone hfree g'.frameId r hr g' hg')

end CheckPage

theorem Coherent.checkPage {kind : GuardKind} {p : PageId} {g : Guard}
    {pool' : BufferPoolManager} (h : s.Coherent n hist) (hp : Requestable hist p)
    (hguards : s.pool.pageTable.lookup p ≠ none ∨ s.guards = [])
    (hcheck : s.pool.checkPage B order kind p = .ok (g, pool')) :
    Coherent n (.checkPage kind p :: hist) ⟨pool', g :: s.guards⟩ := by
  have hvictim : s.pool.pageTable.lookup p = none → s.pool.freeFrames = [] →
      ∀ f r, s.pool.arcReplacer.evict B = .ok (some f, r) → ∀ g ∈ s.guards, g.frameId ≠ f := by
    intro hnone _ f r _ g hg
    rw [hguards.resolve_left fun hne => hne hnone] at hg
    exact absurd hg List.not_mem_nil
  refine h.congr rfl rfl (h.pool.checkPage hp hcheck) (h.counted.checkPage hvictim hcheck)
    (h.held.checkPage hvictim hcheck) ?_ ?_
  · exact BufferPoolManager.checkPage_nextPageId hcheck
  · intro q f hq
    rcases BufferPoolManager.checkPage_known hcheck hq with rfl | hq
    · exact hp.1
    · obtain ⟨f', hf'⟩ := Option.isSome_iff_exists.mp hq
      exact h.known q f' hf'

/-! ### Calls that create, write or delete a page -/

theorem Coherent.newPage {p : PageId} {pool : BufferPoolManager} (h : s.Coherent n hist)
    (hlt : created hist + 1 < 2 ^ 32) (hnew : s.pool.newPage = .ok (p, pool)) :
    Coherent n (.newPage :: hist) ⟨pool, s.guards⟩ := by
  have hp : p = s.pool.nextPageId := (BufferPoolManager.newPage_eq_ok.mp hnew).1
  have hblank : written hist p = .zero pageSize := h.blank p (by rw [hp, h.next])
  have hpool := h.pool.newPage hnew hblank
  obtain ⟨-, reply, dm, -, rfl⟩ := BufferPoolManager.newPage_eq_ok.mp hnew
  have hcreated : created (.newPage :: hist) = created hist + 1 := rfl
  refine ⟨⟨hpool.partition, hpool.sized, hpool.packed, hpool.resident, ?_⟩, h.counted,
    h.held, ?_, ?_, ?_⟩
  · rintro q ⟨hq, hnot⟩
    apply hpool.onDisk q
    by_cases hqp : q = p
    · exact Or.inl hqp
    · -- another page was there before, since its id is not the new one
      refine Or.inr ⟨?_, fun hmem => hnot (List.mem_cons_of_mem _ hmem)⟩
      have hne : q.toNat ≠ created hist := by
        rw [← h.next, ← hp]
        exact fun heq => hqp (UInt32.toNat_inj.mp heq)
      omega
  · show (p + 1).toNat = created hist + 1
    rw [UInt32.toNat_add, hp, h.next]
    exact Nat.mod_eq_of_lt hlt
  · intro q f hq
    have := h.known q f hq
    omega
  · intro q hq
    exact h.blank q (by omega)

theorem Coherent.write {g : Guard} (h : s.Coherent n hist) (hg : g ∈ s.guards) (data : Page) :
    Coherent n (.write g data :: hist) ⟨(s.pool.dataMut g).store g data, s.guards⟩ := by
  have hheld := h.held g hg
  have hpool := (h.pool.dataMut g).store hheld data
  have hwritten : written (.write g data :: hist) =
      Function.update (written hist) g.pageId data := by
    funext p
    simp [written, Function.update_apply]
  have hdisk : ∀ q, Requestable (.write g data :: hist) q → Requestable hist q :=
    fun q hq => ⟨hq.1, fun hmem => hq.2 (List.mem_cons_of_mem _ hmem)⟩
  refine ⟨⟨hpool.partition, hpool.sized, hpool.packed, ?_, ?_⟩,
    h.counted.write g data, h.held, h.next, h.known, ?_⟩
  · rw [hwritten]
    exact hpool.resident
  · rw [hwritten]
    exact fun q hq => hpool.onDisk q (hdisk q hq)
  · intro q hq
    -- a page written to was created, so that the pages not created stay blank
    have hne : q ≠ g.pageId := by
      rintro rfl
      have hlt := h.known g.pageId g.frameId hheld
      have hle : created hist ≤ g.pageId.toNat := hq
      omega
    rw [hwritten, Function.update_of_ne hne]
    exact h.blank q hq

theorem Coherent.deletePage {p : PageId} {pool : BufferPoolManager} (h : s.Coherent n hist)
    (hdelete : s.pool.deletePage p = .ok pool) :
    Coherent n (.deletePage p :: hist) ⟨pool, s.guards⟩ := by
  have hpool := h.pool.deletePage hdelete
  have hpool' : pool.Coherent n (written hist) (Requestable (.deletePage p :: hist)) := by
    refine ⟨hpool.partition, hpool.sized, hpool.packed, hpool.resident, ?_⟩
    rintro q ⟨hq, hnot⟩
    refine hpool.onDisk q ⟨?_, hq, fun hmem => hnot (List.mem_cons_of_mem _ hmem)⟩
    rintro rfl
    exact hnot List.mem_cons_self
  rcases BufferPoolManager.deletePage_cases hdelete with
    ⟨-, rfl⟩ | ⟨f, hp, -, ⟨-, rfl⟩ | ⟨hzero, reply, dm, -, rfl⟩⟩
  · exact ⟨hpool', h.counted, h.held, h.next, h.known, h.blank⟩
  · exact ⟨hpool', h.counted, h.held, h.next, h.known, h.blank⟩
  · -- no guard is on the frame given back, so none was on the page
    refine ⟨hpool', Counted.released h.counted hzero p _ dm, ?_, h.next, ?_, h.blank⟩
    · intro g hg
      have hheld := h.held g hg
      refine HashMap.lookup_erase_eq_some.mpr ⟨?_, hheld⟩
      rintro rfl
      exact h.counted.frameId_ne hzero hg (by simpa [hheld] using hp)
    · intro q x hq
      exact h.known q x (HashMap.lookup_erase_eq_some.mp hq).2

theorem step_coherent {c : PoolCall} (h : s.Coherent n hist) (hc : Requests hist c s)
    (hstep : step B order c s = some s') : s'.Coherent n (c :: hist) := by
  cases c with
  | newPage =>
      obtain ⟨p, pool, hnew, rfl⟩ := step_newPage.mp hstep
      exact h.newPage (hc.1 rfl) hnew
  | checkPage kind p =>
      obtain ⟨g, pool, hcheck, rfl⟩ := step_checkPage.mp hstep
      obtain ⟨hp, hguards⟩ := hc.2 kind p rfl
      exact h.checkPage hp hguards hcheck
  | write g data =>
      obtain ⟨hg, -, rfl⟩ := step_write.mp hstep
      exact h.write hg data
  | flushGuard g =>
      obtain ⟨hg, b, pool, hflush, rfl⟩ := step_flushGuard.mp hstep
      have hpool := h.pool.flushGuard (h.held g hg) hflush
      have hcounted := h.counted.flushGuard hflush
      rcases BufferPoolManager.flushGuard_cases hflush with
        ⟨-, -, rfl⟩ | ⟨-, -, reply, dm, -, rfl⟩
      · exact h.congr rfl rfl hpool hcounted h.held rfl h.known
      · exact h.congr rfl rfl hpool hcounted h.held rfl h.known
  | dropGuard g =>
      obtain ⟨hg, pool, hdrop, rfl⟩ := step_dropGuard.mp hstep
      have hpool := h.pool.dropGuard hdrop
      have hcounted := h.counted.dropGuard hg hdrop
      have hheld : ∀ g' ∈ s.guards.erase g, s.pool.pageTable.lookup g'.pageId =
          some g'.frameId := fun g' hg' => h.held g' (List.mem_of_mem_erase hg')
      rcases BufferPoolManager.dropGuard_cases hdrop with ⟨-, rfl⟩ | ⟨-, r, -, rfl⟩
      · exact h.congr rfl rfl hpool hcounted hheld rfl h.known
      · exact h.congr rfl rfl hpool hcounted hheld rfl h.known
  | flushPage p =>
      obtain ⟨b, pool, hflush, rfl⟩ := step_flushPage.mp hstep
      have h' : Coherent n hist ⟨pool, s.guards⟩ := by
        rcases BufferPoolManager.flushPage_cases hflush with ⟨-, -, rfl⟩ | ⟨f, hp, hflush⟩
        · exact h
        · exact h.flushFrame hp hflush
      exact h'.congr rfl rfl h'.pool h'.counted h'.held rfl h'.known
  | flushAllPages =>
      obtain ⟨b, pool, hflush, rfl⟩ := step_flushAllPages.mp hstep
      have h' : Coherent n hist ⟨pool, s.guards⟩ :=
        BufferPoolManager.flushAllPages_induction
          (J := fun pool => Coherent n hist ⟨pool, s.guards⟩)
          (fun _ _ _ _ _ hJ hp hflush => hJ.flushFrame hp hflush) h hflush
      exact h'.congr rfl rfl h'.pool h'.counted h'.held rfl h'.known
  | deletePage p =>
      obtain ⟨pool, hdelete, rfl⟩ := step_deletePage.mp hstep
      exact h.deletePage hdelete

end ReadBack

/-- **The pool is a coherent cache**: in every run that asks for pages as
`Requests` says, each guard shows at any moment the bytes last written to
its page. -/
theorem readsBack_throughout (B : Build) (order : HashOrder) (n : ℕ) (dbFile : DbFile)
    (hf : dbFile.NoFaults) (dm : DiskManager) (hnew : DiskManager.new dbFile = .ok dm)
    (calls : List PoolCall)
    (hcalls : Along (step B order) Requests [] calls (.new n dm)) :
    Throughout (step B order) ReadsBack [] calls (.new n dm) := by
  have hstep : ∀ hist c s s', Coherent n hist s → Requests hist c s →
      step B order c s = some s' → Coherent n (c :: hist) s' :=
    fun _ _ _ _ h hc hstep => step_coherent h hc hstep
  exact (throughout_of_along hstep (new_coherent_of_new hf hnew) hcalls).mono
    fun _ _ h => h.readsBack

/-- Three pages pass through two frames: page 0 is evicted for page 2, which is
deleted and leaves its slot of the file to page 3. -/
def crowdedCalls : List PoolCall :=
  [.newPage, .newPage, .newPage,
    .checkPage .write 0, .write ⟨.write, 0, 1⟩ (.ofFn pageSize fun _ => 1),
    .dropGuard ⟨.write, 0, 1⟩,
    .checkPage .write 1, .write ⟨.write, 1, 0⟩ (.ofFn pageSize fun _ => 2),
    .dropGuard ⟨.write, 1, 0⟩,
    .checkPage .write 2, .write ⟨.write, 2, 1⟩ (.ofFn pageSize fun _ => 3),
    .dropGuard ⟨.write, 2, 1⟩, .deletePage 2, .newPage,
    .checkPage .write 3, .write ⟨.write, 3, 1⟩ (.ofFn pageSize fun _ => 4), .flushAllPages]

/-- Page 0 is loaded again, in the place of page 3. -/
def reloadCalls : List PoolCall := crowdedCalls ++ [.dropGuard ⟨.write, 3, 1⟩, .checkPage .read 0]

theorem reloadCalls_read_back :
    ∃ s, run (step ⟨true⟩ .listed) reloadCalls (.new 2 (.fresh DiskManager.blankFile)) = some s ∧
      s.pool.data ⟨.read, 0, 1⟩ = .ofFn pageSize fun _ => 1 := by
  have hrun : (run (step ⟨true⟩ .listed) reloadCalls
      (.new 2 (.fresh DiskManager.blankFile))).map Session.guards = some [⟨.read, 0, 1⟩] := by
    decide +kernel
  obtain ⟨s, hs, hguards⟩ := Option.map_eq_some_iff.mp hrun
  have hcalls : Along (step ⟨true⟩ .listed) Requests [] reloadCalls
      (.new 2 (.fresh DiskManager.blankFile)) := by
    decide +kernel
  have hread := (readsBack_throughout ⟨true⟩ .listed 2 DiskManager.blankFile (fun _ => rfl) _
    (DiskManager.new_eq_fresh fun _ => rfl) _ hcalls).last hs ⟨.read, 0, 1⟩ (by simp [hguards])
  exact ⟨s, hs, hread⟩

end Session

end StorageEngine
