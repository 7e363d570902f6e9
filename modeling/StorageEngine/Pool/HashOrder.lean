import StorageEngine.Pool.Durable

/-!
What the iteration order of the page table decides.

An eviction looks for the page of its victim by iterating over the page table,
a hash map. No two pages have one frame, so that it finds the same page in any
order, and a run does not depend on it until `flush_all_pages`. This call takes
a guard on each page in that order, which is an access to the page: after it
`mru` is empty and `mfu` is the order itself, whatever the replacer knew.
-/

namespace StorageEngine

open Lib

theorem HashOrder.mem_entries {order : HashOrder} {m : HashMap PageId FrameId} {p : PageId}
    {f : FrameId} : (p, f) ∈ order.entries m ↔ m.lookup p = some f := by
  rw [(order.perm m).mem_iff, List.mem_map, ← HashMap.mem_entries_iff]
  constructor
  · rintro ⟨⟨p', f'⟩, hmem, heq⟩
    obtain ⟨rfl, rfl⟩ := Prod.mk.inj heq
    exact hmem
  · intro hmem
    exact ⟨⟨p, f⟩, hmem, rfl⟩

/-- The order the model keeps, backwards. -/
def HashOrder.reversed : HashOrder where
  entries m := (m.entries.map fun e => (e.1, e.2)).reverse
  perm _ := List.reverse_perm _

namespace BufferPoolManager

variable {B : Build} {order : HashOrder} {n : ℕ} {bpm bpm' : BufferPoolManager}

/-! ### Evictions -/

/-- The page of a frame is the same in any order. -/
theorem Partition.find?_entries (h : bpm.Partition n) (order order' : HashOrder) (f : FrameId) :
    ((order.entries bpm.pageTable).find? fun e => e.2 = f) =
      (order'.entries bpm.pageTable).find? fun e => e.2 = f := by
  apply List.find?_eq_find?_of_perm
  · exact (order.perm _).trans (order'.perm _).symm
  · rintro ⟨p, f₁⟩ ⟨hp, hf₁⟩ ⟨q, f₂⟩ ⟨hq, hf₂⟩
    obtain rfl : f₁ = f := of_decide_eq_true hf₁
    obtain rfl : f₂ = f₁ := of_decide_eq_true hf₂
    rw [h.injective (HashOrder.mem_entries.mp hp) (HashOrder.mem_entries.mp hq)]

theorem Partition.evictFrame_order (h : bpm.Partition n) (order order' : HashOrder) :
    bpm.evictFrame B order = bpm.evictFrame B order' := by
  simp only [BufferPoolManager.evictFrame, h.find?_entries order order']

theorem Partition.checkPage_order (h : bpm.Partition n) (order order' : HashOrder)
    (kind : GuardKind) (p : PageId) :
    bpm.checkPage B order kind p = bpm.checkPage B order' kind p := by
  rw [BufferPoolManager.checkPage, BufferPoolManager.checkPage, h.evictFrame_order order order']

/-! ### `flush_all_pages` -/

/-- A flush of a resident page is an access to it. -/
theorem Tracking.flushFrame_lists (h : bpm.Tracking n) {p : PageId} {f : FrameId} {flushed : Bool}
    (hp : bpm.pageTable.lookup p = some f)
    (hflush : bpm.flushFrame B p f = .ok (flushed, bpm')) :
    bpm'.arcReplacer.mru = bpm.arcReplacer.mru.filter (· ≠ (f, p)) ∧
      bpm'.arcReplacer.mfu = (f, p) :: bpm.arcReplacer.mfu.filter (· ≠ (f, p)) := by
  obtain ⟨-, r, r', dm, hr, hr', -, rfl⟩ := flushFrame_cases hflush
  obtain rfl := (ArcReplacer.recordAccess_recorded hr).eq_promote (h.mem_iff.mpr hp)
  rcases hr' with ⟨-, rfl⟩ | ⟨-, hr'⟩
  · exact ⟨rfl, rfl⟩
  · obtain ⟨m, -, rfl⟩ := ArcReplacer.setEvictable_eq_ok.mp hr'
    exact ⟨rfl, rfl⟩

/-- The loop of `flush_all_pages` moves the pages it has visited to the front
of `mfu`, the last one first. -/
theorem flushEntries_lists (entries : List (PageId × FrameId)) :
    ∀ {bpm bpm' : BufferPoolManager}, bpm.Tracking n → entries.Nodup →
      (∀ e ∈ entries, bpm.pageTable.lookup e.1 = some e.2) →
      bpm.flushEntries B entries = .ok bpm' →
      bpm'.arcReplacer.mru = bpm.arcReplacer.mru.filter (·.swap ∉ entries) ∧
        bpm'.arcReplacer.mfu =
          (entries.map Prod.swap).reverse ++ bpm.arcReplacer.mfu.filter (·.swap ∉ entries) := by
  induction entries with
  | nil =>
      intro bpm bpm' _ _ _ hflush
      obtain rfl := Except.ok.inj hflush
      simp
  | cons e rest ih =>
      intro bpm bpm' h hnodup hmapped hflush
      obtain ⟨p, f⟩ := e
      obtain ⟨hnew, hnodup⟩ := List.nodup_cons.mp hnodup
      have hp : bpm.pageTable.lookup p = some f := hmapped (p, f) List.mem_cons_self
      obtain ⟨⟨flushed, bpm₁⟩, hfirst, hflush⟩ := bind_eq_ok.mp hflush
      obtain ⟨hmru, hmfu⟩ := h.flushFrame_lists hp hfirst
      obtain ⟨-, r, r', dm, -, -, -, heq⟩ := flushFrame_cases hfirst
      obtain ⟨hmru', hmfu'⟩ := ih (h.flushFrame hp hfirst) hnodup (by
        intro e he
        rw [heq]
        exact hmapped e (List.mem_cons_of_mem _ he)) hflush
      have hother : ∀ x : FrameId × PageId,
          (decide (x.swap ∉ rest) && decide (x ≠ (f, p))) = decide (x.swap ∉ (p, f) :: rest) := by
        rintro ⟨f', p'⟩
        rw [← Bool.decide_and, decide_eq_decide, List.mem_cons, not_or, and_comm, Prod.swap_prod_mk,
          Ne, Prod.mk.injEq, Prod.mk.injEq, and_comm (a := p' = p)]
      constructor
      · rw [hmru', hmru, List.filter_filter]
        apply List.filter_congr
        exact fun x _ => hother x
      · rw [hmfu', hmfu, List.filter_cons_of_pos (by simpa using hnew), List.filter_filter,
          List.map_cons, List.reverse_cons, List.append_assoc, List.singleton_append]
        congr 2
        apply List.filter_congr
        exact fun x _ => hother x

theorem nodup_entries (bpm : BufferPoolManager) (order : HashOrder) :
    (order.entries bpm.pageTable).Nodup := by
  rw [(order.perm bpm.pageTable).nodup_iff]
  apply List.Nodup.map _ bpm.pageTable.nodupKeys.nodup
  rintro ⟨p, f⟩ ⟨q, f'⟩ heq
  obtain ⟨rfl, rfl⟩ := Prod.mk.inj heq
  rfl

/-- The loop is run on an empty page table too, where it does nothing. -/
theorem flushEntries_of_flushAllPages {flushed : Bool}
    (hflush : bpm.flushAllPages B order = .ok (flushed, bpm')) :
    bpm.flushEntries B (order.entries bpm.pageTable) = .ok bpm' := by
  rw [flushAllPages] at hflush
  split at hflush
  · next hlen =>
      obtain ⟨-, rfl⟩ := Prod.mk.inj (Except.ok.inj hflush)
      have hnone := (order.perm bpm.pageTable).length_eq
      rw [List.length_map, show bpm.pageTable.entries.length = 0 from hlen] at hnone
      rw [List.eq_nil_of_length_eq_zero hnone, flushEntries]
  · obtain ⟨bpm₁, hloop, hflush⟩ := bind_eq_ok.mp hflush
    obtain ⟨-, rfl⟩ := Prod.mk.inj (Except.ok.inj hflush)
    exact hloop

/-- **After `flush_all_pages`** the replacer lists the pages as the iteration
visited them, the last one first, and all of them as used more than once. -/
theorem Tracking.flushAllPages_lists (h : bpm.Tracking n) {flushed : Bool}
    (hflush : bpm.flushAllPages B order = .ok (flushed, bpm')) :
    bpm'.arcReplacer.mru = [] ∧
      bpm'.arcReplacer.mfu = ((order.entries bpm'.pageTable).map Prod.swap).reverse := by
  have hlisted : ∀ x ∈ bpm.arcReplacer.mru ++ bpm.arcReplacer.mfu,
      x.swap ∈ order.entries bpm.pageTable := fun x hx =>
    HashOrder.mem_entries.mpr (h.mem_iff.mp hx)
  obtain ⟨hmru, hmfu⟩ := flushEntries_lists _ h (nodup_entries bpm order)
    (fun e he => HashOrder.mem_entries.mp he) (flushEntries_of_flushAllPages hflush)
  rw [(flushAllPages_samePages hflush).1, hmru, hmfu]
  constructor
  · rw [List.filter_eq_nil_iff]
    intro x hx
    simpa using hlisted x (List.mem_append_left _ hx)
  · rw [List.append_right_eq_self, List.filter_eq_nil_iff]
    intro x hx
    simpa using hlisted x (List.mem_append_right _ hx)

end BufferPoolManager

namespace ArcReplacer

variable {B : Build} {r r' : ArcReplacer} {f : FrameId}

/-- Where `mru` is empty, the victim is the last entry of `mfu` with an
evictable frame. -/
theorem evict_of_mru_nil (hmru : r.mru = []) (hevict : r.evict B = .ok (some f, r')) :
    (r.mfu.reverse.map Prod.fst).find? (· ∈ r.evictablePages) = some f := by
  obtain ⟨hnone, -⟩ | ⟨f', p, hsome, hev⟩ := evict_cases hevict
  · cases hnone
  · obtain rfl := Option.some.inj hsome
    cases hev with
    | fromMru pre post n hf list => simp [hmru] at list
    | fromMfu pre post n hf list last =>
        rw [List.find?_eq_some_iff_append, list]
        refine ⟨by simpa using hf, post.reverse.map Prod.fst, pre.reverse.map Prod.fst, by simp, ?_⟩
        intro f' hf'
        obtain ⟨e, he, rfl⟩ := List.mem_map.mp hf'
        simpa using last e (List.mem_reverse.mp he)

end ArcReplacer

namespace Session

/-- After `flush_all_pages` no page counts as used once, and the next victim
is the first page the iteration visits whose frame is evictable. -/
structure Forgets (B : Build) (order : HashOrder) (s : Session) : Prop where
  mru : s.pool.arcReplacer.mru = []
  mfu : s.pool.arcReplacer.mfu = ((order.entries s.pool.pageTable).map Prod.swap).reverse
  victim : ∀ f r, s.pool.arcReplacer.evict B = .ok (some f, r) →
    ((order.entries s.pool.pageTable).map Prod.snd).find?
      (· ∈ s.pool.arcReplacer.evictablePages) = some f

section Order

variable {B : Build} {order : HashOrder} {n : ℕ} {s s' : Session} {c : PoolCall}

/-- Each call but `flush_all_pages` does the same in any order. -/
theorem step_order (h : s.pool.Partition n) (order order' : HashOrder) (hc : c ≠ .flushAllPages) :
    step B order c s = step B order' c s := by
  cases c with
  | flushAllPages => exact absurd rfl hc
  | checkPage kind p => rw [step, step, h.checkPage_order order order']
  | newPage => rfl
  | write g data => rfl
  | flushGuard g => rfl
  | dropGuard g => rfl
  | flushPage p => rfl
  | deletePage p => rfl

theorem run_order (calls : List (HashOrder × PoolCall))
    (hcalls : ∀ c ∈ calls, c.2 ≠ .flushAllPages) :
    ∀ {s : Session}, s.pool.Partition n →
      run (fun c => step B c.1 c.2) calls s = run (step B order) (calls.map Prod.snd) s := by
  induction calls with
  | nil => exact fun _ => rfl
  | cons c calls ih =>
      intro s h
      rw [run_cons, List.map_cons, run_cons,
        step_order h c.1 order (hcalls c List.mem_cons_self)]
      cases hs : step B order c.2 s with
      | none => rfl
      | some s₁ =>
          exact ih (fun c hc => hcalls c (List.mem_cons_of_mem _ hc)) (step_partition h hs)

/-- **The hash order does not matter** to any run without `flush_all_pages`,
even where each call iterates in an order of its own: the run completes in the
one order if and only if it does in the other, in the same state. -/
theorem run_anyOrder (B : Build) (n : ℕ) (dm : DiskManager) (calls : List (HashOrder × PoolCall))
    (hcalls : ∀ c ∈ calls, c.2 ≠ .flushAllPages) (order : HashOrder) :
    run (fun c => step B c.1 c.2) calls (.new n dm) =
      run (step B order) (calls.map Prod.snd) (.new n dm) :=
  run_order calls hcalls (BufferPoolManager.new_partition n dm)

/-- Two of three pages are mapped when one is evicted in another order. -/
theorem run_anyOrder_two_frames :
    run (fun c => step ⟨true⟩ c.1 c.2)
        [(.listed, .newPage), (.listed, .newPage), (.listed, .newPage),
          (.reversed, .checkPage .write 0), (.listed, .dropGuard ⟨.write, 0, 1⟩),
          (.listed, .checkPage .read 1), (.reversed, .dropGuard ⟨.read, 1, 0⟩),
          (.reversed, .checkPage .read 2)]
        (.new 2 (.fresh DiskManager.blankFile)) =
      run (step ⟨true⟩ .listed)
        [.newPage, .newPage, .newPage, .checkPage .write 0, .dropGuard ⟨.write, 0, 1⟩,
          .checkPage .read 1, .dropGuard ⟨.read, 1, 0⟩, .checkPage .read 2]
        (.new 2 (.fresh DiskManager.blankFile)) :=
  run_anyOrder ⟨true⟩ 2 _
    [(.listed, .newPage), (.listed, .newPage), (.listed, .newPage),
      (.reversed, .checkPage .write 0), (.listed, .dropGuard ⟨.write, 0, 1⟩),
      (.listed, .checkPage .read 1), (.reversed, .dropGuard ⟨.read, 1, 0⟩),
      (.reversed, .checkPage .read 2)] (by simp) .listed

/-- **`flush_all_pages` forgets recency** in every run that unmaps no page by a
delete. -/
theorem forgets_throughout (B : Build) (order : HashOrder) (n : ℕ) (dm : DiskManager)
    (calls : List PoolCall) (hcalls : Along (step B order) UnmapsNothing [] calls (.new n dm)) :
    Throughout (step B order) (fun hist s => hist.head? = some .flushAllPages → s.Forgets B order)
      [] calls (.new n dm) := by
  have hinv := throughout_of_along (P := fun hist s => s.Tracked n ∧
    (hist.head? = some .flushAllPages → s.Forgets B order)) ?_
    ⟨new_tracked n dm, fun hhist => by simp at hhist⟩ hcalls
  · exact hinv.mono fun _ _ h => h.2
  · rintro hist c s s' ⟨h, -⟩ hc hstep
    refine ⟨step_tracked h hc hstep, fun hhist => ?_⟩
    obtain rfl : c = .flushAllPages := by simpa using hhist
    obtain ⟨flushed, pool, hflush, rfl⟩ := step_flushAllPages.mp hstep
    obtain ⟨hmru, hmfu⟩ := h.pool.flushAllPages_lists hflush
    refine ⟨hmru, hmfu, fun f r hevict => ?_⟩
    have hvictim := ArcReplacer.evict_of_mru_nil hmru hevict
    rw [hmfu, List.reverse_reverse, List.map_map] at hvictim
    exact hvictim

/-- Page 0 is used twice, page 1 once, and all pages are flushed. -/
def forgetfulCalls : List PoolCall :=
  [.newPage, .newPage, .checkPage .write 0, .dropGuard ⟨.write, 0, 1⟩, .checkPage .read 0,
    .dropGuard ⟨.read, 0, 1⟩, .checkPage .read 1, .dropGuard ⟨.read, 1, 0⟩, .flushAllPages]

theorem forgetfulCalls_forget :
    ∃ s r, run (step ⟨true⟩ .listed) forgetfulCalls (.new 2 (.fresh DiskManager.blankFile)) =
        some s ∧ s.pool.arcReplacer.evict ⟨true⟩ = .ok (some 0, r) ∧ s.Forgets ⟨true⟩ .listed := by
  have hrun : (run (step ⟨true⟩ .listed) forgetfulCalls
      (.new 2 (.fresh DiskManager.blankFile))).map
      (fun s => (s.pool.arcReplacer.evict ⟨true⟩).toOption.map Prod.fst) =
      some (some (some 0)) := by
    decide +kernel
  obtain ⟨s, hs, hevict⟩ := Option.map_eq_some_iff.mp hrun
  obtain ⟨r, hr⟩ := exists_ok_of_toOption hevict
  have hcalls : Along (step ⟨true⟩ .listed) UnmapsNothing [] forgetfulCalls
      (.new 2 (.fresh DiskManager.blankFile)) := by
    apply Along.of_forall
    rintro c hc hist s p rfl
    simp [forgetfulCalls] at hc
  exact ⟨s, r, hs, hr, (forgets_throughout _ _ 2 _ _ hcalls).last hs rfl⟩

end Order

end Session

end StorageEngine
