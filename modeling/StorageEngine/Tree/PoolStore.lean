import StorageEngine.Pool.ReadBack
import StorageEngine.Pool.Totality
import StorageEngine.Tree.Index

/-!
The B+Tree on its buffer pool.

In the source a page store is a session with a buffer pool, where a guard is
found by its page. `Mirrors` relates such a session to a plain store with the
same contents; under conditions on the requests of the session, each command
of a program keeps the relation and returns the same, so that a workload of
the tree sees no difference.
-/

namespace StorageEngine

open Lib

namespace PoolStore

/-- The guard a session holds on a page. -/
def guardOn (s : Session) (p : PageId) : Except Abort Guard :=
  match s.guards.find? (·.pageId = p) with
  | some guard => .ok guard
  | none => .error .misuse

/-- A call of the pool, whose panic ends the program. -/
def call {α : Type} (x : Except Panic α) : Except Abort α := x.mapError .panic

/-- What a command does. -/
def step (B : Build) (order : HashOrder) :
    ∀ β, PageCmd β → Session → Except Abort (β × Session)
  | _, .newPage, s => do
      let (p, pool) ← call s.pool.newPage
      return (p, { s with pool })
  | _, .check kind p, s => do
      let (guard, pool) ← call (s.pool.checkPage B order kind p)
      return ((), { pool, guards := guard :: s.guards })
  | _, .data p, s => do
      let guard ← guardOn s p
      return (s.pool.data guard, s)
  | _, .dataMut p, s => do
      let guard ← guardOn s p
      return (s.pool.data guard, { s with pool := s.pool.dataMut guard })
  | _, .store p page, s => do
      let guard ← guardOn s p
      return ((), { s with pool := s.pool.store guard page })
  | _, .drop p, s => do
      let guard ← guardOn s p
      let pool ← call (s.pool.dropGuard B guard)
      return ((), { pool, guards := s.guards.erase guard })

/-- The run of a program of the tree on a session with a pool. -/
abbrev exec {α : Type} (B : Build) (order : HashOrder) (p : PageProg α) (s : Session) :
    Except Abort (α × Session) :=
  p.run (step B order) s

/-- A drop does not overflow `curr_size`, and every request is one the pool
serves. -/
def Serves (B : Build) : ∀ β, PageCmd β → Session → Prop
  | _, .check _ p, s => s.Serves B p
  | _, .drop _, s => s.pool.arcReplacer.currSize + 1 < 2 ^ 32
  | _, _, _ => True

instance (B : Build) : ∀ β c s, Decidable (Serves B β c s)
  | _, .check _ p, s => inferInstanceAs (Decidable (s.Serves B p))
  | _, .drop _, _ => inferInstanceAs (Decidable (_ < _))
  | _, .newPage, _ => .isTrue trivial
  | _, .data _, _ => .isTrue trivial
  | _, .dataMut _, _ => .isTrue trivial
  | _, .store _ _, _ => .isTrue trivial

end PoolStore

/-- No more than `n` pages are ever pinned at once. -/
def PlainStore.Fits {I : IdSupply} (n : ℕ) : ∀ β, PageCmd β → PlainStore I → Prop
  | _, .check _ _, st => st.held.card < n
  | _, _, _ => True

instance {I : IdSupply} (n : ℕ) : ∀ β c (st : PlainStore I), Decidable (st.Fits n β c)
  | _, .check _ _, _ => inferInstanceAs (Decidable (_ < _))
  | _, .newPage, _ => .isTrue trivial
  | _, .data _, _ => .isTrue trivial
  | _, .dataMut _, _ => .isTrue trivial
  | _, .store _ _, _ => .isTrue trivial
  | _, .drop _, _ => .isTrue trivial

namespace Session

variable {N n : ℕ} {hN : N ≤ 4294967295} {st st' : PlainStore (.counting N hN)}
  {s s' : Session} {B : Build} {order : HashOrder} {p : PageId}

/-- The session shows the pages of the plain store, and holds guards on the
same ones. -/
structure Mirrors (n : ℕ) (st : PlainStore (.counting N hN)) (s : Session) : Prop where
  tracked : s.Tracked n
  counted : s.Counted
  held : s.Held
  bounded : s.pool.arcReplacer.Bounded
  pool : s.pool.Coherent n st.content (· ∈ st.issued)
  known : ∀ p f, s.pool.pageTable.lookup p = some f → p ∈ st.issued
  next : s.pool.nextPageId.toNat = st.next
  nodup : (s.guards.map Guard.pageId).Nodup
  pages : (s.guards.map Guard.pageId).toFinset = st.held

namespace Mirrors

theorem guardOn_ok (h : s.Mirrors n st) (hp : p ∈ st.held) :
    ∃ g ∈ s.guards, g.pageId = p ∧ PoolStore.guardOn s p = .ok g := by
  rw [← h.pages, List.mem_toFinset, List.mem_map] at hp
  obtain ⟨g, hg, rfl⟩ := hp
  have hfind : (s.guards.find? (·.pageId = g.pageId)).isSome := by
    rw [List.find?_isSome]
    exact ⟨g, hg, by simp⟩
  obtain ⟨g', hg'⟩ := Option.isSome_iff_exists.mp hfind
  refine ⟨g', List.mem_of_find?_eq_some hg', by simpa using List.find?_some hg', ?_⟩
  rw [PoolStore.guardOn, hg']

theorem length_guards (h : s.Mirrors n st) : s.guards.length = st.held.card := by
  rw [← h.pages, List.toFinset_card_of_nodup h.nodup, List.length_map]

/-- What changes only the header under a guard, and not its pins. -/
theorem setFrame (h : s.Mirrors n st) {f : FrameId} {header : FrameHeader}
    (hpin : header.pinCount = (s.pool.frames f).pinCount) {st' : PlainStore (.counting N hN)}
    (hpool : (s.pool.setFrame f header).Coherent n st'.content (· ∈ st.issued))
    (hnext : st'.next = st.next) (hheld : st'.held = st.held) :
    Mirrors n st' ⟨s.pool.setFrame f header, s.guards⟩ := by
  have hissued : st'.issued = st.issued := by rw [PlainStore.issued, hnext, PlainStore.issued]
  have hframes : ∀ f', ((s.pool.setFrame f header).frames f').pinCount =
      (s.pool.frames f').pinCount := BufferPoolManager.update_field FrameHeader.pinCount hpin
  obtain ⟨ht, hclean, hguards⟩ := h.tracked
  refine ⟨⟨ht.frame hpool.partition rfl rfl hframes, hclean.congr hframes rfl rfl, hguards⟩,
    h.counted.congr hframes, h.held, h.bounded, ?_, ?_, h.next.trans hnext.symm, h.nodup,
    h.pages.trans hheld.symm⟩
  · rw [hissued]
    exact hpool
  · rw [hissued]
    exact h.known

theorem dataMut (h : s.Mirrors n st) (g : Guard) :
    Mirrors n st ⟨s.pool.dataMut g, s.guards⟩ := by
  refine h.setFrame ?_ (h.pool.dataMut g) rfl rfl
  rfl

theorem store (h : s.Mirrors n st) {g : Guard} (hg : g ∈ s.guards) (page : Page) :
    Mirrors n (st.put g.pageId page) ⟨s.pool.store g page, s.guards⟩ := by
  refine h.setFrame ?_ (h.pool.store (h.held g hg) page) rfl rfl
  rfl

theorem newPage (h : s.Mirrors n st)
    (hp : (IdSupply.counting N hN).ids[st.next]? = some p) :
    ∃ pool, s.pool.newPage = .ok (p, pool) ∧ Mirrors n (st.alloc p) ⟨pool, s.guards⟩ := by
  have hfresh : st.fresh = p :: (st.alloc p).fresh := by
    obtain ⟨hlt, rfl⟩ := List.getElem?_eq_some_iff.mp hp
    exact List.drop_eq_getElem_cons hlt
  have hnot := PlainStore.notMem_issued hfresh
  obtain ⟨hlt, rfl⟩ : st.next < N ∧ p = s.pool.nextPageId := by
    simp only [IdSupply.counting, List.getElem?_map, Option.map_eq_some_iff,
      List.getElem?_eq_some_iff, List.length_range, List.getElem_range] at hp
    obtain ⟨i, ⟨hlt, rfl⟩, rfl⟩ := hp
    exact ⟨hlt, by rw [← h.next, UInt32.ofNat_toNat]⟩
  obtain ⟨dm, hserve, -⟩ :=
    DiskManager.serve_write h.pool.sized h.pool.packed s.pool.nextPageId (.zero pageSize)
  have hnew := BufferPoolManager.newPage_eq_ok.mpr ⟨rfl, _, dm, hserve, rfl⟩
  -- the new id is neither resident nor known to the store so far
  have hne : ∀ q, q ∈ st.issued → (st.alloc s.pool.nextPageId).content q = st.content q := by
    intro q hq
    rw [PlainStore.content_alloc, Function.update_of_ne]
    rintro rfl
    exact hnot hq
  have hcoherent := (h.pool.replace (fun q f hq => hne q (h.known q f hq)) hne).newPage hnew
    (by rw [PlainStore.content_alloc, Function.update_self])
  refine ⟨_, hnew, ⟨h.tracked.pool.frame hcoherent.partition rfl rfl fun _ => rfl,
    h.tracked.clean, h.tracked.guards⟩, h.counted.congr fun _ => rfl, h.held, h.bounded, ?_, ?_,
    ?_, h.nodup, h.pages⟩
  · simpa only [PlainStore.mem_issued_alloc hfresh] using hcoherent
  · intro q f hq
    exact (PlainStore.mem_issued_alloc hfresh).mpr (Or.inr (h.known q f hq))
  · show (s.pool.nextPageId + 1).toNat = st.next + 1
    rw [UInt32.toNat_add, h.next]
    exact Nat.mod_eq_of_lt (show st.next + 1 < 2 ^ 32 by omega)

theorem checkPage (h : s.Mirrors n st) (hfits : st.held.card < n) (hissued : p ∈ st.issued)
    (hfree : p ∉ st.held) (hserves : s.Serves B p) (order : HashOrder) (kind : GuardKind) :
    ∃ g pool, s.pool.checkPage B order kind p = .ok (g, pool) ∧
      Mirrors n (st.hold p) ⟨pool, g :: s.guards⟩ := by
  obtain ⟨g, pool, hcheck, hbounded⟩ := checkPage_ok h.tracked h.counted h.pool h.bounded
    (by rw [h.length_guards]; exact hfits) hissued hserves order kind
  have hvictim : s.pool.pageTable.lookup p = none → s.pool.freeFrames = [] →
      ∀ f r, s.pool.arcReplacer.evict B = .ok (some f, r) → ∀ g ∈ s.guards, g.frameId ≠ f := by
    intro hnone hnil f r hevict g hg hgf
    have hzero := (hserves hnone).1 (f, r) (BufferPoolManager.victim_of_evict hnil hevict)
    have hpos := liveOn_pos_iff.mpr ⟨g, hg, hgf⟩
    exact hpos.ne' hzero
  obtain ⟨hgp, -, -⟩ := BufferPoolManager.checkPage_lookup hcheck
  refine ⟨g, pool, hcheck, ?_, h.counted.checkPage hvictim hcheck, h.held.checkPage hvictim hcheck,
    hbounded, h.pool.checkPage hissued hcheck, ?_, ?_, ?_, ?_⟩
  · have hstep : Session.step B order (.checkPage kind p) s = some ⟨pool, g :: s.guards⟩ :=
      step_checkPage.mpr ⟨g, pool, hcheck, rfl⟩
    have hkeeps : UnmapsNothing [] (.checkPage kind p) s := nofun
    exact step_tracked h.tracked hkeeps hstep
  · intro q f hq
    rcases BufferPoolManager.checkPage_known hcheck hq with rfl | hq
    · exact hissued
    · obtain ⟨f', hf'⟩ := Option.isSome_iff_exists.mp hq
      exact h.known q f' hf'
  · exact (congrArg UInt32.toNat (BufferPoolManager.checkPage_nextPageId hcheck)).trans h.next
  · rw [List.map_cons, List.nodup_cons, hgp, ← List.mem_toFinset, h.pages]
    exact ⟨hfree, h.nodup⟩
  · rw [List.map_cons, List.toFinset_cons, hgp, h.pages, PlainStore.held_hold]

theorem dropGuard (h : s.Mirrors n st) {g : Guard} (hg : g ∈ s.guards)
    (hsize : s.pool.arcReplacer.currSize + 1 < 2 ^ 32) :
    ∃ pool, s.pool.dropGuard B g = .ok pool ∧
      Mirrors n (st.release g.pageId) ⟨pool, s.guards.erase g⟩ := by
  obtain ⟨pool, hdrop, hbounded⟩ := dropGuard_ok (B := B) h.bounded hsize g
  have hperm : (s.guards.map Guard.pageId).Perm
      (g.pageId :: (s.guards.erase g).map Guard.pageId) :=
    (List.perm_cons_erase hg).map Guard.pageId
  obtain ⟨hnot, hnodup⟩ := List.nodup_cons.mp (hperm.nodup_iff.mp h.nodup)
  have htable : pool.pageTable = s.pool.pageTable ∧ pool.nextPageId = s.pool.nextPageId := by
    rcases BufferPoolManager.dropGuard_cases hdrop with ⟨-, rfl⟩ | ⟨-, r, -, rfl⟩
    · exact ⟨rfl, rfl⟩
    · exact ⟨rfl, rfl⟩
  refine ⟨pool, hdrop, ?_, h.counted.dropGuard hg hdrop, ?_, hbounded, h.pool.dropGuard hdrop, ?_,
    ?_, hnodup, ?_⟩
  · have hstep : Session.step B .listed (.dropGuard g) s = some ⟨pool, s.guards.erase g⟩ :=
      step_dropGuard.mpr ⟨hg, pool, hdrop, rfl⟩
    have hkeeps : UnmapsNothing [] (.dropGuard g) s := nofun
    exact step_tracked h.tracked hkeeps hstep
  · intro g' hg'
    rw [htable.1]
    exact h.held g' (List.mem_of_mem_erase hg')
  · rw [htable.1]
    exact h.known
  · rw [htable.2]
    exact h.next
  · rw [PlainStore.held_release, ← h.pages, List.toFinset_eq_of_perm _ _ hperm,
      List.toFinset_cons, Finset.erase_insert]
    rwa [List.mem_toFinset]

end Mirrors

theorem new_mirrors {dm : DiskManager} (hn : 3 * n < 2 ^ 32) (hs : dm.Sized)
    (hp : dm.Packed) : (new n dm).Mirrors n (.new (.counting N hN)) where
  tracked := new_tracked n dm
  counted := fun _ => rfl
  held := fun _ hg => absurd hg List.not_mem_nil
  bounded := ArcReplacer.new_bounded hn
  pool := by
    have h := BufferPoolManager.new_coherent (n := n) hs hp
    exact ⟨h.partition, h.sized, h.packed, h.resident, fun p hp => absurd hp List.not_mem_nil⟩
  known := fun p f hp => absurd hp (by simp [new, BufferPoolManager.new])
  next := rfl
  nodup := List.nodup_nil
  pages := rfl

/-- **Each command** of a program does the same on the pool. -/
theorem step_mirrors (order : HashOrder) : ∀ (β : Type) (c : PageCmd β)
    (st : PlainStore (.counting N hN)) (s : Session) (b : β) (st' : PlainStore (.counting N hN)),
    s.Mirrors n st → st.Fits n β c → PoolStore.Serves B β c s →
    PlainStore.step β c st = .ok (b, st') →
    ∃ s', PoolStore.step B order β c s = .ok (b, s') ∧ s'.Mirrors n st' := by
  intro β c st s b st' hm hfits hserves hstep
  cases c with
  | newPage =>
      rw [PlainStore.step] at hstep
      split at hstep
      · simp at hstep
      · next p hp =>
          obtain ⟨rfl, rfl⟩ := Prod.mk.inj (Except.ok.inj hstep)
          obtain ⟨pool, hnew, hm'⟩ := hm.newPage hp
          exact ⟨⟨pool, s.guards⟩, by simp only [PoolStore.step, hnew]; rfl, hm'⟩
  | check kind p =>
      rw [PlainStore.step] at hstep
      split at hstep
      · next h =>
          obtain ⟨-, rfl⟩ := Prod.mk.inj (Except.ok.inj hstep)
          obtain ⟨g, pool, hcheck, hm'⟩ := hm.checkPage hfits h.1 h.2 hserves order kind
          exact ⟨⟨pool, g :: s.guards⟩, by simp only [PoolStore.step, hcheck]; rfl, hm'⟩
      · simp at hstep
  | data p =>
      rw [PlainStore.step] at hstep
      split at hstep
      · next hp =>
          obtain ⟨rfl, rfl⟩ := Prod.mk.inj (Except.ok.inj hstep)
          obtain ⟨g, hg, rfl, hguard⟩ := hm.guardOn_ok hp
          have hdata := hm.pool.resident g.pageId g.frameId (hm.held g hg)
          exact ⟨s, by simp only [PoolStore.step, hguard, ← hdata]; rfl, hm⟩
      · simp at hstep
  | dataMut p =>
      rw [PlainStore.step] at hstep
      split at hstep
      · next hp =>
          obtain ⟨rfl, rfl⟩ := Prod.mk.inj (Except.ok.inj hstep)
          obtain ⟨g, hg, rfl, hguard⟩ := hm.guardOn_ok hp
          have hdata := hm.pool.resident g.pageId g.frameId (hm.held g hg)
          exact ⟨⟨s.pool.dataMut g, s.guards⟩, by
            simp only [PoolStore.step, hguard, ← hdata]; rfl, hm.dataMut g⟩
      · simp at hstep
  | store p page =>
      rw [PlainStore.step] at hstep
      split at hstep
      · next hp =>
          obtain ⟨-, rfl⟩ := Prod.mk.inj (Except.ok.inj hstep)
          obtain ⟨g, hg, rfl, hguard⟩ := hm.guardOn_ok hp
          exact ⟨⟨s.pool.store g page, s.guards⟩, by simp only [PoolStore.step, hguard]; rfl,
            hm.store hg page⟩
      · simp at hstep
  | drop p =>
      rw [PlainStore.step] at hstep
      split at hstep
      · next hp =>
          obtain ⟨-, rfl⟩ := Prod.mk.inj (Except.ok.inj hstep)
          obtain ⟨g, hg, rfl, hguard⟩ := hm.guardOn_ok hp
          obtain ⟨pool, hdrop, hm'⟩ := hm.dropGuard (B := B) hg hserves
          exact ⟨⟨pool, s.guards.erase g⟩, by
            simp only [PoolStore.step, hguard, ok_bind, hdrop]; rfl, hm'⟩
      · simp at hstep

end Session

namespace PoolStore

/-- **The pool is as good as a map.** A workload that never pins more pages
than the pool has frames, and whose requests and drops the pool serves, ends
on the pool with the results it has on a plain store. -/
theorem workload_mirrors (B : Build) (order : HashOrder) (S : KeySort) {L M : ℕ}
    (hL : 1 ≤ L ∧ L ≤ 511) (hM : 2 ≤ M ∧ M ≤ 681) (key : Key) (rid : RecordId)
    (ops : List TreeOp) (N : ℕ) (hN : N ≤ 4294967295) (dbFile : DbFile) (hf : dbFile.NoFaults)
    (dm : DiskManager) (hnew : DiskManager.new dbFile = .ok dm)
    (hfits : (BTree.workload B S L M key rid ops).Along PlainStore.step (PlainStore.Fits 10)
      (.new (.counting N hN)))
    (hserves : (BTree.workload B S L M key rid ops).Along (step B order) (Serves B)
      (.new 10 dm)) :
    (PlainStore.exec (BTree.workload B S L M key rid ops) (.new (.counting N hN)) =
        .error .outOfIds ∧ ¬(IdSupply.counting N hN).Suffices L M (ops.length + 1)) ∨
    ∃ results st s,
      PlainStore.exec (BTree.workload B S L M key rid ops) (.new (.counting N hN)) =
        .ok (results, st) ∧
      exec B order (BTree.workload B S L M key rid ops) (.new 10 dm) = .ok (results, s) := by
  rcases PlainStore.exec_workload (.counting N hN) B S hL hM key rid ops with
    ⟨herror, hfew⟩ | ⟨results, st, hrun⟩
  · exact Or.inl ⟨herror, hfew⟩
  · obtain rfl : DiskManager.fresh dbFile = dm := by
      simpa [DiskManager.new_eq_fresh hf] using hnew
    obtain ⟨hs, hp, -⟩ := DiskManager.fresh_tracks hf
    obtain ⟨s, hrun', -⟩ := Prog.run_sim (Session.step_mirrors order)
      (Session.new_mirrors (by decide) hs hp) hfits hserves hrun
    exact Or.inr ⟨results, st, s, hrun, hrun'⟩

/-- After a first insert of key 4 and with two children a branch, these leave
ten pages under the header, one page more than the pool has frames. The lookup
asks for a page that was evicted. -/
def branching : List TreeOp :=
  [.insert 1 ⟨0, 1⟩, .insert 2 ⟨0, 2⟩, .insert 3 ⟨0, 3⟩, .find 4]

theorem workload_mirrors_branching :
    ∃ results st s,
      PlainStore.exec (BTree.workload ⟨true⟩ .insertion 1 2 4 ⟨0, 4⟩ branching)
        (.new (.counting 40 (by decide))) = .ok (results, st) ∧
      exec ⟨true⟩ .listed (BTree.workload ⟨true⟩ .insertion 1 2 4 ⟨0, 4⟩ branching)
        (.new 10 (.fresh DiskManager.blankFile)) = .ok (results, s) :=
  (workload_mirrors ⟨true⟩ .listed .insertion (by decide) (by decide) 4 ⟨0, 4⟩ branching 40
    (by decide) DiskManager.blankFile (fun _ => rfl) _ (DiskManager.new_eq_fresh fun _ => rfl)
    (by decide +kernel) (by decide +kernel)).resolve_left
      fun h => h.2 (IdSupply.suffices_of_square (by decide))

/-- Nine inserts, the first one before these, grow a tree over more pages
than the pool has frames. The lookup after them then asks for a page that
was evicted from `mfu` while the target size is still zero. -/
def growing : List TreeOp :=
  [.insert 2 ⟨0, 2⟩, .insert 3 ⟨0, 3⟩, .insert 4 ⟨0, 4⟩, .insert 5 ⟨0, 5⟩, .insert 6 ⟨0, 6⟩,
    .insert 7 ⟨0, 7⟩, .insert 8 ⟨0, 8⟩, .insert 9 ⟨0, 9⟩, .find 1]

theorem growing_panics :
    (BTree.workload ⟨true⟩ .insertion 1 681 1 ⟨0, 1⟩ growing).Along PlainStore.step
      (PlainStore.Fits 10) (.new (.counting 20 (by decide))) ∧
    (∃ st, PlainStore.exec (BTree.workload ⟨true⟩ .insertion 1 681 1 ⟨0, 1⟩ growing)
      (.new (.counting 20 (by decide))) = .ok ([some (1, ⟨0, 1⟩)], st)) ∧
    exec ⟨true⟩ .listed (BTree.workload ⟨true⟩ .insertion 1 681 1 ⟨0, 1⟩ growing)
      (.new 10 (.fresh DiskManager.blankFile)) = .error (.panic .overflow) := by
  refine ⟨by decide +kernel, exists_ok_of_toOption (by decide +kernel), ?_⟩
  rw [← errorOf_eq_some]
  decide +kernel

end PoolStore

end StorageEngine
