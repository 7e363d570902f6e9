import StorageEngine.Pool.ArcCalls
import StorageEngine.Pool.Coherence

/-!
The counter `curr_size` next to the set it counts.

`set_evictable` adds one to the counter whether or not the frame is in the
set, and nothing takes a frame out of it when it is pinned again. So the two
agree as long as no marked frame is marked a second time.
-/

namespace StorageEngine

open Lib

namespace ArcReplacer

/-- `curr_size` counts the evictable frames, which are frames of the pool. -/
def CountsExactly (n : ℕ) (r : ArcReplacer) : Prop :=
  r.currSize = r.evictablePages.card ∧ r.currSize ≤ n

/-- The call moves `curr_size` inside `u32`. -/
def CounterInRange (r : ArcReplacer) : ArcCall → Prop
  | .setEvictable f => errorOf (r.setEvictable ⟨true⟩ f) ≠ some .overflow
  | .evict => errorOf (r.evict ⟨true⟩) ≠ some .overflow
  | _ => True

/-- A frame is marked that is not marked yet, and there are fewer than 2^32 of
them then. -/
def MarksUnmarked (r : ArcReplacer) : ArcCall → Prop
  | .setEvictable f => f ∉ r.evictablePages ∧ r.evictablePages.card + 1 < 2 ^ 32
  | _ => True

/-- The call marks no frame but those below `n`. -/
def MarksBelow (n : ℕ) : ArcCall → Prop
  | .setEvictable f => f < n
  | _ => True

/-- The invariant behind `CountsExactly`. -/
def Exact (n : ℕ) (r : ArcReplacer) : Prop :=
  r.currSize = r.evictablePages.card ∧ r.evictablePages ⊆ Finset.range n

section Counter

variable {B : Build} {n : ℕ} {r r' : ArcReplacer}

theorem Exact.countsExactly (h : r.Exact n) : r.CountsExactly n := by
  obtain ⟨hcount, hsub⟩ := h
  have hcard := Finset.card_le_card hsub
  rw [Finset.card_range] at hcard
  exact ⟨hcount, hcount.trans_le hcard⟩

theorem setEvictable_eq (hfits : r.currSize + 1 < 2 ^ 32) (f : FrameId) :
    r.setEvictable B f = .ok { r with
      evictablePages := insert f r.evictablePages, currSize := r.currSize + 1 } := by
  rw [setEvictable, B.addU32_eq hfits]
  rfl

/-- One call keeps counter and set together. -/
theorem step_exact {call : ArcCall} (h : r.Exact n) (hmarks : r.MarksUnmarked call)
    (hbelow : MarksBelow n call) (hstep : step B call r = some r') : r'.Exact n := by
  obtain ⟨hcount, hsub⟩ := h
  cases call with
  | recordAccess f p =>
      have hr := recordAccess_recorded (step_recordAccess.mp hstep)
      rw [Exact, hr.evictablePages_eq, hr.currSize_eq]
      exact ⟨hcount, hsub⟩
  | setEvictable f =>
      obtain ⟨hunmarked, hfits⟩ := hmarks
      have heq := setEvictable_eq (B := B) (hcount ▸ hfits) f
      obtain rfl := Except.ok.inj (heq.symm.trans (step_setEvictable.mp hstep))
      refine ⟨?_, Finset.insert_subset (Finset.mem_range.mpr hbelow) hsub⟩
      rw [Finset.card_insert_of_notMem hunmarked, hcount]
  | evict =>
      obtain ⟨o, hevict⟩ := step_evict.mp hstep
      rcases evict_cases hevict with ⟨-, rfl, -⟩ | ⟨f, p, -, hr⟩
      · exact ⟨hcount, hsub⟩
      · obtain ⟨hf, hset⟩ := hr.evictable
        have hpos : 0 < r.currSize := hcount ▸ Finset.card_pos.mpr ⟨f, hf⟩
        rw [Exact, hset, hr.currSize_eq hpos, Finset.card_erase_of_mem hf, hcount]
        exact ⟨rfl, (Finset.erase_subset f _).trans hsub⟩
  | remove f =>
      obtain rfl := step_remove.mp hstep
      -- an evictable frame is not removed, and any other is not in the set
      have hset : (r.remove f).evictablePages = r.evictablePages := by
        rw [remove]
        split
        · rfl
        · next hf =>
            simp only
            split
            · exact Finset.erase_eq_of_notMem hf
            · rfl
      rw [Exact, hset, remove_currSize]
      exact ⟨hcount, hsub⟩

theorem Exact.counterInRange (h : r.Exact n) {call : ArcCall} (hmarks : r.MarksUnmarked call) :
    r.CounterInRange call := by
  cases call with
  | recordAccess f p => trivial
  | setEvictable f =>
      have hfits : r.currSize + 1 < 2 ^ 32 := h.1 ▸ hmarks.2
      simp [CounterInRange, setEvictable_eq hfits, errorOf]
  | evict =>
      obtain ⟨o, r', hevict⟩ := evict_completes (B := ⟨true⟩) (r := r) fun _ => h.1.ge
      simp [CounterInRange, hevict, errorOf]
  | remove f => trivial

/-- A counter that is right before and after a call that marks a frame has
found it unmarked. -/
theorem CountsExactly.marksUnmarked (h : r.CountsExactly n) {call : ArcCall}
    (hnext : ∀ r', step B call r = some r' → r'.CountsExactly n)
    (hrange : r.CounterInRange call) : r.MarksUnmarked call := by
  cases call with
  | recordAccess f p => trivial
  | setEvictable f =>
      have hfits : r.currSize + 1 < 2 ^ 32 := by
        by_contra hge
        have hover : Build.addU32 ⟨true⟩ r.currSize 1 = .error .overflow := by
          rw [Build.addU32, if_neg hge, if_pos rfl]
        apply hrange
        rw [setEvictable, hover]
        rfl
      have heq := setEvictable_eq (B := B) hfits f
      have hcount := (hnext _ (step_setEvictable.mpr heq)).1
      refine ⟨fun hmarked => ?_, h.1 ▸ hfits⟩
      simp only [Finset.insert_eq_of_mem hmarked, h.1] at hcount
      omega
  | evict => trivial
  | remove f => trivial

end Counter

end ArcReplacer

namespace BufferPoolManager

open ArcReplacer (MarksBelow)

variable {B : Build} {n : ℕ} {bpm : BufferPoolManager}

theorem loadPageCalls_below (p : PageId) : ∀ call ∈ bpm.loadPageCalls p, MarksBelow n call := by
  intro call hcall
  rw [loadPageCalls] at hcall
  split at hcall
  · simp at hcall
  · obtain rfl := List.mem_singleton.mp hcall
    trivial

theorem checkPageCalls_below (order : HashOrder) (p : PageId) :
    ∀ call ∈ bpm.checkPageCalls B order p, MarksBelow n call := by
  intro call hcall
  rw [checkPageCalls] at hcall
  split at hcall
  · obtain rfl := List.mem_singleton.mp hcall
    trivial
  split at hcall
  · exact loadPageCalls_below p call hcall
  rcases List.mem_cons.mp hcall with rfl | hcall
  · trivial
  split at hcall
  · exact loadPageCalls_below p call hcall
  · simp at hcall

theorem deletePageCalls_below (p : PageId) : ∀ call ∈ bpm.deletePageCalls p, MarksBelow n call := by
  intro call hcall
  rw [deletePageCalls] at hcall
  split at hcall
  · simp at hcall
  split at hcall
  · simp at hcall
  · obtain rfl := List.mem_singleton.mp hcall
    trivial

theorem flushFrameCalls_below {f : FrameId} (hf : f < n) (p : PageId) :
    ∀ call ∈ bpm.flushFrameCalls p f, MarksBelow n call := by
  intro call hcall
  rcases List.mem_cons.mp hcall with rfl | hcall
  · trivial
  · split at hcall
    · obtain rfl := List.mem_singleton.mp hcall
      exact hf
    · simp at hcall

theorem flushEntriesCalls_below {entries : List (PageId × FrameId)} :
    ∀ {bpm : BufferPoolManager}, (∀ e ∈ entries, e.2 < n) →
      ∀ call ∈ bpm.flushEntriesCalls B entries, MarksBelow n call := by
  induction entries with
  | nil => simp [flushEntriesCalls]
  | cons e rest ih =>
      intro bpm hlt call hcall
      rw [flushEntriesCalls] at hcall
      rcases List.mem_append.mp hcall with hcall | hcall
      · exact flushFrameCalls_below (hlt e List.mem_cons_self) e.1 call hcall
      · split at hcall
        · exact ih (fun e he => hlt e (List.mem_cons_of_mem _ he)) call hcall
        · simp at hcall

end BufferPoolManager

namespace Session

open ArcReplacer (MarksBelow MarksUnmarked CountsExactly CounterInRange)

variable {B : Build} {order : HashOrder} {n : ℕ} {s s' : Session}

/-- Guards are on frames of the pool. -/
structure Framed (n : ℕ) (s : Session) : Prop where
  partition : s.pool.Partition n
  guards : ∀ g ∈ s.guards, g.frameId < n

theorem step_framed {call : PoolCall} (h : s.Framed n) (hstep : step B order call s = some s') :
    s'.Framed n := by
  refine ⟨step_partition h.partition hstep, ?_⟩
  cases call with
  | newPage =>
      obtain ⟨p, pool, -, rfl⟩ := step_newPage.mp hstep
      exact h.guards
  | checkPage kind p =>
      obtain ⟨g, pool, hcheck, rfl⟩ := step_checkPage.mp hstep
      obtain ⟨-, hmapped, -⟩ := BufferPoolManager.checkPage_lookup hcheck
      intro g' hg'
      rcases List.mem_cons.mp hg' with rfl | hg'
      · exact (h.partition.checkPage hcheck).lt hmapped
      · exact h.guards g' hg'
  | write g data =>
      obtain ⟨-, -, rfl⟩ := step_write.mp hstep
      exact h.guards
  | flushGuard g =>
      obtain ⟨-, b, pool, -, rfl⟩ := step_flushGuard.mp hstep
      exact h.guards
  | dropGuard g =>
      obtain ⟨-, pool, -, rfl⟩ := step_dropGuard.mp hstep
      exact fun g' hg' => h.guards g' (List.mem_of_mem_erase hg')
  | flushPage p =>
      obtain ⟨b, pool, -, rfl⟩ := step_flushPage.mp hstep
      exact h.guards
  | flushAllPages =>
      obtain ⟨b, pool, -, rfl⟩ := step_flushAllPages.mp hstep
      exact h.guards
  | deletePage p =>
      obtain ⟨pool, -, rfl⟩ := step_deletePage.mp hstep
      exact h.guards

/-- A pool marks its own frames. -/
theorem replacerCalls_below (h : s.Framed n) (call : PoolCall) :
    ∀ c ∈ s.replacerCalls B order call, MarksBelow n c := by
  intro c hc
  cases call with
  | newPage => simp [replacerCalls] at hc
  | checkPage kind p => exact BufferPoolManager.checkPageCalls_below order p c hc
  | write g data => simp [replacerCalls] at hc
  | flushGuard g => simp [replacerCalls] at hc
  | dropGuard g =>
      simp only [replacerCalls, BufferPoolManager.dropGuardCalls] at hc
      split at hc
      · next hg =>
          split at hc
          · obtain rfl := List.mem_singleton.mp hc
            exact h.guards g hg
          · simp at hc
      · simp at hc
  | flushPage p =>
      simp only [replacerCalls] at hc
      split at hc
      · next f hp => exact BufferPoolManager.flushFrameCalls_below (h.partition.lt hp) p c hc
      · simp at hc
  | flushAllPages =>
      refine BufferPoolManager.flushEntriesCalls_below (fun e he => ?_) c hc
      obtain ⟨⟨p, f⟩, hent, rfl⟩ := List.mem_map.mp ((order.perm s.pool.pageTable).mem_iff.mp he)
      exact h.partition.lt (HashMap.mem_entries_iff.mp hent)
  | deletePage p => exact BufferPoolManager.deletePageCalls_below p c hc

theorem replacerRun_below {calls : List PoolCall} : ∀ {s : Session}, s.Framed n →
    ∀ c ∈ s.replacerRun B order calls, MarksBelow n c := by
  induction calls with
  | nil => simp [replacerRun]
  | cons call calls ih =>
      intro s h c hc
      rw [replacerRun] at hc
      rcases List.mem_append.mp hc with hc | hc
      · exact replacerCalls_below h call c hc
      split at hc
      · next s' hs' => exact ih (step_framed h hs') c hc
      · simp at hc

/-- **The evictable counter does not drift** in a run of the pool exactly if
no call of the run marks a frame that is marked already. -/
theorem countsExactly_iff (B : Build) (order : HashOrder) (n : ℕ) (dm : DiskManager)
    (calls : List PoolCall) :
    Throughout (ArcReplacer.step B) (fun _ r => r.CountsExactly n) []
          (replacerRun B order calls (.new n dm)) (.new n) ∧
        Before (ArcReplacer.step B) (fun _ call r => r.CounterInRange call) []
          (replacerRun B order calls (.new n dm)) (.new n) ↔
      Before (ArcReplacer.step B) (fun _ call r => r.MarksUnmarked call) []
        (replacerRun B order calls (.new n dm)) (.new n) := by
  constructor
  · rintro ⟨hcounts, hrange⟩
    exact hcounts.before (fun _ _ _ h hnext hc => h.marksUnmarked hnext hc) hrange
  · intro hmarks
    have hframed : (new n dm).Framed n :=
      ⟨BufferPoolManager.new_partition n dm, fun g hg => by simp [new] at hg⟩
    have hbelow : Along (ArcReplacer.step B) (fun _ call _ => MarksBelow n call) []
        (replacerRun B order calls (.new n dm)) (.new n) :=
      .of_forall fun c hc _ _ => replacerRun_below hframed c hc
    have hexact : Throughout (ArcReplacer.step B) (fun _ r => r.Exact n) []
        (replacerRun B order calls (.new n dm)) (.new n) := by
      refine throughout_of_along ?_ ⟨rfl, Finset.empty_subset _⟩ (hmarks.along.and hbelow)
      rintro hist call r r' h ⟨hunmarked, hlt⟩ hstep
      exact ArcReplacer.step_exact h hunmarked hlt hstep
    exact ⟨hexact.mono fun _ _ h => h.countsExactly,
      hexact.before (fun _ _ _ h _ hc => h.counterInRange hc) hmarks⟩

/-- A page that is read twice. -/
def readTwice : List PoolCall :=
  [.newPage, .checkPage .read 0, .dropGuard ⟨.read, 0, 0⟩, .checkPage .read 0,
    .dropGuard ⟨.read, 0, 0⟩]

/-- The one frame of the pool counts for two. -/
theorem readTwice_drifts :
    (run (step ⟨true⟩ .listed) readTwice (.new 1 (.fresh DiskManager.blankFile))).map
        (fun s => (s.pool.arcReplacer.currSize, s.pool.arcReplacer.evictablePages.card)) =
      some (2, 1) ∧
    ¬(Throughout (ArcReplacer.step ⟨true⟩) (fun _ r => r.CountsExactly 1) []
          (replacerRun ⟨true⟩ .listed readTwice (.new 1 (.fresh DiskManager.blankFile)))
          (.new 1) ∧
        Before (ArcReplacer.step ⟨true⟩) (fun _ call r => r.CounterInRange call) []
          (replacerRun ⟨true⟩ .listed readTwice (.new 1 (.fresh DiskManager.blankFile)))
          (.new 1)) := by
  have hrun : (run (step ⟨true⟩ .listed) readTwice
      (.new 1 (.fresh DiskManager.blankFile))).map
        (fun s => (s.pool.arcReplacer.currSize, s.pool.arcReplacer.evictablePages.card)) =
      some (2, 1) := by
    decide +kernel
  refine ⟨hrun, ?_⟩
  rintro ⟨hcounts, -⟩
  obtain ⟨s, hs, hsize⟩ := Option.map_eq_some_iff.mp hrun
  have hcount := (hcounts.last (run_replacerRun hs)).1
  obtain ⟨hsize, hcard⟩ := Prod.mk.inj hsize
  omega

end Session

end StorageEngine
