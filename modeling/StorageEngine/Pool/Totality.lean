import StorageEngine.Pool.Coherence
import StorageEngine.Pool.Requests

/-!
Calls that complete.

The counters of the replacer stay within bounds that keep its arithmetic in
range, with one exception: a hit in `mfu_ghost` that finds the target size at
zero subtracts one from it. With every other page request, a pool that has a
frame without guards serves the request.
-/

namespace StorageEngine

open Lib

namespace ArcReplacer

/-- The counters are in range. `replacer_size` is a count of frames. -/
structure Bounded (r : ArcReplacer) : Prop where
  size : 3 * r.replacerSize < 2 ^ 32
  target : r.mruTargetSize ≤ r.replacerSize
  total : r.mru.length + r.mfu.length + r.mfuGhost.length + r.mruGhost.length ≤
    2 * r.replacerSize
  marked : r.evictablePages.card ≤ r.currSize

variable {B : Build} {r r' : ArcReplacer} {f : FrameId} {p : PageId}

theorem new_bounded {n : ℕ} (hn : 3 * n < 2 ^ 32) : (new n).Bounded where
  size := hn
  target := Nat.zero_le n
  total := Nat.zero_le (2 * n)
  marked := le_rfl

theorem Bounded.countsMarks (h : r.Bounded) (B : Build) : r.CountsMarks B := fun _ => h.marked

/-- The bounds leave room for every move up. -/
theorem Bounded.not_targetOverflows (h : r.Bounded) (p : PageId) : ¬r.TargetOverflows p := by
  obtain ⟨hsize, htarget, htotal, -⟩ := h
  rintro ⟨hp, hover⟩
  have hpos := List.length_pos_of_mem hp
  have hinc : r.increment ≤ 2 * r.replacerSize := by
    rw [increment]
    split
    · omega
    · have hdiv : r.mfuGhost.length / r.mruGhost.length ≤ r.mfuGhost.length := Nat.div_le_self _ _
      have hmod := Nat.mod_le (r.mfuGhost.length / r.mruGhost.length) (2 ^ 32)
      omega
  omega

theorem increaseTarget_ok (h : r.Bounded) (hp : p ∈ r.mruGhost) :
    ∃ t, r.increaseTarget B = .ok t ∧ t ≤ r.replacerSize := by
  have hsize := h.size
  have hfits : r.mruTargetSize + r.increment < 2 ^ 32 :=
    not_le.mp fun hge => h.not_targetOverflows p ⟨hp, hge⟩
  obtain ⟨t, ht⟩ := (increaseTarget_ok_iff (B := B) hp).mpr
    ⟨by omega, fun _ => h.not_targetOverflows p⟩
  rcases increaseTarget_cases (B := B) hp hfits with herr | ⟨t', ht', hle⟩
  · simp [herr] at ht
  · exact ⟨t', ht', hle h.target⟩

/-- An access is recorded unless it takes the target size below zero. -/
theorem recordAccess_ok (h : r.Bounded) (hp : ¬r.TargetUnderflows p) (f : FrameId) :
    ∃ r', r.recordAccess B f p = .ok r' := by
  have hsize := h.size
  exact (recordAccess_ok_iff f p).mpr fun _ =>
    ⟨fun _ => by omega, fun _ => ⟨h.not_targetOverflows p, hp⟩⟩

/-! ### The bounds are kept -/

theorem Recorded.bounded_of_mem (h : Recorded B r f p r') (hb : r.Bounded)
    (hmem : (f, p) ∈ r.mru ++ r.mfu) (hnodup : (r.mru ++ r.mfu).Nodup) : r'.Bounded := by
  have htotal := hb.total
  obtain ⟨hperm, hmruGhost, hmfuGhost, -⟩ := h.perm_of_mem hmem hnodup
  have hlen := hperm.length_eq
  simp only [List.length_append] at hlen
  obtain rfl := h.eq_promote hmem
  exact ⟨hb.size, hb.target, by simp only at hlen ⊢; omega, hb.marked⟩

/-- An access to a page that is not tracked, in a replacer that does not
track as many pages as it has room for. -/
theorem Recorded.bounded_of_notMem (h : Recorded B r f p r') (hb : r.Bounded)
    (hmiss : (f, p) ∉ r.mru ++ r.mfu) (hp : ¬r.TargetUnderflows p)
    (hroom : r.mru.length + r.mfu.length < r.replacerSize) : r'.Bounded := by
  obtain ⟨hsize, htarget, htotal, hmarked⟩ := hb
  have htotal' := h.total_of_notMem hmiss hroom htotal
  cases h with
  | promote hit => exact absurd hit hmiss
  | mruGhostHit _ hit t ht =>
      obtain ⟨t', ht', hle⟩ := increaseTarget_ok (B := B) ⟨hsize, htarget, htotal, hmarked⟩ hit
      obtain rfl := Except.ok.inj (ht.symm.trans ht')
      exact ⟨hsize, hle, htotal', hmarked⟩
  | mfuGhostHit _ miss₁ hit t ht =>
      obtain ⟨t', ht', hle⟩ := decreaseTarget_ok (B := B) hit
        fun hle hzero => hp ⟨miss₁, hit, hle, hzero⟩
      obtain rfl := Except.ok.inj (ht.symm.trans ht')
      exact ⟨hsize, hle.trans htarget, htotal', hmarked⟩
  | dropMruGhost => exact ⟨hsize, htarget, htotal', hmarked⟩
  | dropMfuGhost => exact ⟨hsize, htarget, htotal', hmarked⟩
  | enter => exact ⟨hsize, htarget, htotal', hmarked⟩
  | untracked => exact ⟨hsize, htarget, htotal', hmarked⟩

theorem subU32_currSize (hb : r.Bounded) (hf : f ∈ r.evictablePages) :
    B.subU32 r.currSize 1 = .ok (r.currSize - 1) := by
  apply B.subU32_eq
  exact (Finset.card_pos.mpr ⟨f, hf⟩).trans_le hb.marked

theorem Evicted.bounded (h : Evicted B r f p r') (hb : r.Bounded) : r'.Bounded := by
  have hsub := subU32_currSize (B := B) hb h.evictable.1
  have hcard := Finset.card_erase_of_mem h.evictable.1
  obtain ⟨hsize, htarget, htotal, hmarked⟩ := hb
  cases h with
  | fromMru pre post n hf list last size =>
      obtain rfl := Except.ok.inj (size.symm.trans hsub)
      refine ⟨hsize, htarget, ?_, ?_⟩
      · rw [list] at htotal
        simp only [List.length_append, List.length_cons] at htotal ⊢
        omega
      · show (r.evictablePages.erase f).card ≤ r.currSize - 1
        omega
  | fromMfu pre post n hf list last size =>
      obtain rfl := Except.ok.inj (size.symm.trans hsub)
      refine ⟨hsize, htarget, ?_, ?_⟩
      · rw [list] at htotal
        simp only [List.length_append, List.length_cons] at htotal ⊢
        omega
      · show (r.evictablePages.erase f).card ≤ r.currSize - 1
        omega

theorem setEvictable_ok (h : r.currSize + 1 < 2 ^ 32) (f : FrameId) :
    ∃ r', r.setEvictable B f = .ok r' := by
  rw [setEvictable, B.addU32_eq h]
  exact ⟨_, rfl⟩

theorem setEvictable_bounded (hb : r.Bounded) (h : r.currSize + 1 < 2 ^ 32)
    (hset : r.setEvictable B f = .ok r') : r'.Bounded := by
  obtain ⟨n, hn, rfl⟩ := setEvictable_eq_ok.mp hset
  rw [B.addU32_eq h] at hn
  obtain rfl := Except.ok.inj hn
  refine ⟨hb.size, hb.target, hb.total, ?_⟩
  exact (Finset.card_insert_le f r.evictablePages).trans (Nat.succ_le_succ hb.marked)

end ArcReplacer

namespace BufferPoolManager

/-- What an eviction takes, where one is needed: the frame, and the replacer
it leaves. -/
def victim (B : Build) (bpm : BufferPoolManager) : Option (FrameId × ArcReplacer) :=
  match bpm.freeFrames, bpm.arcReplacer.evict B with
  | [], .ok (some f, r) => some (f, r)
  | _, _ => none

/-- The replacer that records the access to a page that is not resident. -/
def recorder (B : Build) (bpm : BufferPoolManager) : ArcReplacer :=
  match bpm.victim B with
  | some (_, r) => r
  | none => bpm.arcReplacer

section Totality

variable {B : Build} {order : HashOrder} {n : ℕ} {σ : PageId → Page} {L : PageId → Prop}
  {bpm bpm' : BufferPoolManager} {p : PageId}

theorem victim_of_free (h : bpm.freeFrames ≠ []) : bpm.victim B = none := by
  rw [victim]
  split
  · next hnil _ => exact absurd hnil h
  · rfl

theorem victim_of_evict {f : FrameId} {r : ArcReplacer} (h : bpm.freeFrames = [])
    (hevict : bpm.arcReplacer.evict B = .ok (some f, r)) : bpm.victim B = some (f, r) := by
  rw [victim, h, hevict]

/-- A free frame serves a page that is on disk. -/
theorem loadPage_ok (h : bpm.Tracking n) (hc : bpm.Coherent n σ L) (kind : GuardKind)
    (hp : bpm.pageTable.lookup p = none) (hL : L p) (hfree : bpm.freeFrames ≠ [])
    (hb : bpm.arcReplacer.Bounded) (hu : ¬bpm.arcReplacer.TargetUnderflows p) :
    ∃ g bpm', bpm.loadPage B kind p = .ok (g, bpm') ∧ bpm'.arcReplacer.Bounded := by
  obtain ⟨f, rest, hrest⟩ := List.exists_cons_of_ne_nil hfree
  obtain ⟨dm, hserve, -⟩ := DiskManager.serve_read hc.sized hc.packed (hc.onDisk p hL hp)
    (.zero pageSize)
  have hlt : f < bpm.numFrames := by
    rw [h.partition.numFrames, h.partition.cover, hrest]
    exact Or.inr List.mem_cons_self
  have hmiss : (f, p) ∉ bpm.arcReplacer.mru ++ bpm.arcReplacer.mfu := by
    rw [h.mem_iff, hp]
    exact nofun
  have hroom : bpm.arcReplacer.mru.length + bpm.arcReplacer.mfu.length <
      bpm.arcReplacer.replacerSize := by
    have hlen := h.entries.length_eq
    have hpart := h.partition.length
    rw [hrest] at hpart
    rw [h.size]
    simp only [List.length_append, residents, mappedFrames, List.length_map,
      List.length_cons] at hlen hpart
    omega
  have hr := (ArcReplacer.recordAccess_ok_iff f p).mp
    (ArcReplacer.recordAccess_ok (B := B) hb hu f)
  obtain ⟨g, bpm', hload⟩ := (loadPage_ok_iff kind hrest hlt).mpr ⟨⟨σ p, dm, hserve⟩, hr⟩
  refine ⟨g, bpm', hload, ?_⟩
  obtain ⟨f', rest', data, dm', r, hrest', -, -, hr', -, rfl⟩ := loadPage_cases hload
  obtain ⟨rfl, -⟩ := List.cons.inj (hrest.symm.trans hrest')
  exact (ArcReplacer.recordAccess_recorded hr').bounded_of_notMem hb hmiss hu hroom

/-- A frame is freed when some resident page is marked evictable. -/
theorem evictFrame_ok (h : bpm.Tracking n) (hb : bpm.arcReplacer.Bounded)
    (hfree : bpm.freeFrames = []) {q : PageId} {f : FrameId}
    (hq : bpm.pageTable.lookup q = some f) (hmark : f ∈ bpm.arcReplacer.evictablePages)
    (order : HashOrder) : ∃ f r bpm', bpm.arcReplacer.evict B = .ok (some f, r) ∧
      bpm.evictFrame B order = .ok bpm' ∧ bpm'.arcReplacer = r ∧ r.Bounded := by
  obtain ⟨f', r, hevict⟩ := ArcReplacer.evict_ok (hb.countsMarks B) (h.mem_iff.mpr hq) hmark
  obtain ⟨q', reply, dm, -, -, -, hok⟩ := evictFrame_eq_ok h.partition hfree hevict order
  refine ⟨f', r, bpm.released q' f' r dm, hevict, hok, rfl, ?_⟩
  rcases ArcReplacer.evict_cases hevict with ⟨hnone, -⟩ | ⟨f'', p', hsome, hev⟩
  · exact absurd hnone (Option.some_ne_none f')
  · exact hev.bounded hb

end Totality

end BufferPoolManager

namespace Session

variable {B : Build} {order : HashOrder} {n : ℕ} {σ : PageId → Page} {L : PageId → Prop}
  {s : Session} {p : PageId}

/-- A request for a page that is not resident takes no frame from a guard,
and its access does not take the target size below zero. -/
def Serves (B : Build) (s : Session) (p : PageId) : Prop :=
  s.pool.pageTable.lookup p = none →
    (∀ v ∈ s.pool.victim B, s.liveOn v.1 = 0) ∧ ¬(s.pool.recorder B).TargetUnderflows p

instance (B : Build) (s : Session) (p : PageId) : Decidable (s.Serves B p) :=
  inferInstanceAs (Decidable (_ → _ ∧ _))

/-- With fewer guards than frames, a full pool has a page without guards. -/
theorem exists_unpinned (h : s.pool.Partition n) (hfree : s.pool.freeFrames = [])
    (hroom : s.guards.length < n) :
    ∃ q f, s.pool.pageTable.lookup q = some f ∧ ∀ g ∈ s.guards, g.frameId ≠ f := by
  by_contra hnone
  push Not at hnone
  have hsub : s.pool.mappedFrames ⊆ s.guards.map Guard.frameId := by
    intro f hf
    obtain ⟨q, hq⟩ := BufferPoolManager.mem_mappedFrames.mp hf
    obtain ⟨g, hg, hgf⟩ := hnone q f hq
    exact List.mem_map.mpr ⟨g, hg, hgf⟩
  have hle := (List.subperm_of_subset h.nodup.of_append_left hsub).length_le
  have hlen := h.length
  rw [hfree, List.length_nil] at hlen
  rw [List.length_map] at hle
  omega

theorem checkPage_ok (h : s.Tracked n) (hcount : s.Counted) (hc : s.pool.Coherent n σ L)
    (hb : s.pool.arcReplacer.Bounded) (hroom : s.guards.length < n) (hL : L p)
    (hserves : s.Serves B p) (order : HashOrder) (kind : GuardKind) :
    ∃ g pool, s.pool.checkPage B order kind p = .ok (g, pool) ∧ pool.arcReplacer.Bounded := by
  have ht := h.pool
  cases hp : s.pool.pageTable.lookup p with
  | some f =>
      have hlt : f < s.pool.numFrames := ht.partition.numFrames ▸ ht.partition.lt hp
      have hghost := ht.ghosts p f hp
      obtain ⟨r, hr⟩ := ArcReplacer.recordAccess_ok (B := B) hb
        (fun hu => hghost.2 hu.2.1) f
      have hbounded := (ArcReplacer.recordAccess_recorded hr).bounded_of_mem hb
        (ht.mem_iff.mpr hp) ht.nodup
      refine ⟨⟨kind, p, f⟩, s.pool.pinned f r, ?_, hbounded⟩
      simp only [BufferPoolManager.checkPage, hp]
      exact bind_eq_ok.mpr ⟨_, BufferPoolManager.frame_eq_ok.mpr ⟨hlt, rfl⟩,
        BufferPoolManager.newGuard_ok kind hr⟩
  | none =>
      obtain ⟨hvictim, hu⟩ := hserves hp
      by_cases hfree : s.pool.freeFrames = []
      · obtain ⟨q, f, hq, hguards⟩ := exists_unpinned ht.partition hfree hroom
        have hmark := ht.marked q f hq (hcount.pinCount_eq_zero hguards).le
        obtain ⟨f', r, pool₁, hevict, hpool₁, hr, hbounded⟩ :=
          BufferPoolManager.evictFrame_ok ht hb hfree hq hmark order
        have hrec : s.pool.recorder B = r := by
          rw [BufferPoolManager.recorder, BufferPoolManager.victim_of_evict hfree hevict]
        rw [hrec, ← hr] at hu
        have hp₁ := BufferPoolManager.evictFrame_lookup hpool₁ hp
        obtain ⟨ht₁, f₁, hfree₁, -⟩ := ht.evictFrame hpool₁
        obtain ⟨g, pool, hload, hbounded'⟩ := BufferPoolManager.loadPage_ok (B := B) ht₁
          (hc.evictFrame hpool₁) kind hp₁ hL (by rw [hfree₁]; exact List.cons_ne_nil _ _)
          (hr ▸ hbounded) hu
        refine ⟨g, pool, ?_, hbounded'⟩
        simp only [BufferPoolManager.checkPage, hp, hfree, List.length_nil, lt_irrefl, if_false]
        exact bind_eq_ok.mpr ⟨pool₁, hpool₁, hload⟩
      · have hrec : s.pool.recorder B = s.pool.arcReplacer := by
          rw [BufferPoolManager.recorder, BufferPoolManager.victim_of_free hfree]
        rw [hrec] at hu
        obtain ⟨g, pool, hload, hbounded⟩ :=
          BufferPoolManager.loadPage_ok (B := B) ht hc kind hp hL hfree hb hu
        refine ⟨g, pool, ?_, hbounded⟩
        simp only [BufferPoolManager.checkPage, hp, List.length_pos_iff.mpr hfree, if_true]
        exact hload

theorem dropGuard_ok (hb : s.pool.arcReplacer.Bounded)
    (hsize : s.pool.arcReplacer.currSize + 1 < 2 ^ 32) (g : Guard) :
    ∃ pool, s.pool.dropGuard B g = .ok pool ∧ pool.arcReplacer.Bounded := by
  rw [BufferPoolManager.dropGuard]
  split
  · obtain ⟨r, hr⟩ := ArcReplacer.setEvictable_ok (B := B) hsize g.frameId
    exact ⟨_, bind_eq_ok.mpr ⟨r, hr, rfl⟩, ArcReplacer.setEvictable_bounded hb hsize hr⟩
  · exact ⟨_, rfl, hb⟩

end Session

end StorageEngine
