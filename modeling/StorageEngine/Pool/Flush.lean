import StorageEngine.Pool.Durable
import StorageEngine.Pool.Totality

/-!
`flush_all_pages` completes, and the disk has every page after it.

A flush takes a guard on the page, and the drop of that guard counts one more
evictable frame where nobody else holds the page. As long as `curr_size` has
room for one more per frame, no flush of a resident page fails.
-/

namespace StorageEngine

open Lib

namespace BufferPoolManager

variable {B : Build} {n : ℕ} {σ : PageId → Page} {L : PageId → Prop}
  {bpm bpm' : BufferPoolManager}

/-- A flush of a resident page completes. -/
theorem flushFrame_ok (h : bpm.Tracking n) {p : PageId} {f : FrameId}
    (hp : bpm.pageTable.lookup p = some f) (hsize : bpm.arcReplacer.currSize + 1 < 2 ^ 32) :
    ∃ flushed bpm', bpm.flushFrame B p f = .ok (flushed, bpm') ∧
      bpm'.arcReplacer.currSize ≤ bpm.arcReplacer.currSize + 1 := by
  have hlt : f < bpm.numFrames := h.partition.numFrames ▸ h.partition.lt hp
  obtain ⟨r, hr⟩ := (ArcReplacer.recordAccess_ok_iff (B := B) f p).mpr
    fun hmiss => absurd (h.mem_iff.mpr hp) hmiss
  have hcurr := (ArcReplacer.recordAccess_recorded hr).currSize_eq
  -- the guard is flushed, which leaves the replacer alone
  obtain ⟨flushed, bpm₁, hflush, harc⟩ : ∃ flushed bpm₁,
      (bpm.pinned f r).flushGuard ⟨.read, p, f⟩ = .ok (flushed, bpm₁) ∧ bpm₁.arcReplacer = r := by
    rw [flushGuard]
    split
    · exact ⟨_, _, rfl, rfl⟩
    · obtain ⟨reply, dm, hserve⟩ :=
        DiskManager.serve_write_ok bpm.diskManager p ((bpm.pinned f r).frames f).data
      exact ⟨true, _, bind_eq_ok.mpr ⟨_, request_eq_ok.mpr ⟨dm, hserve, rfl⟩, rfl⟩, rfl⟩
  have hroom : bpm₁.arcReplacer.currSize + 1 < 2 ^ 32 := by
    rw [harc, hcurr]
    exact hsize
  obtain ⟨bpm₂, hdrop⟩ : ∃ bpm₂, bpm₁.dropGuard B ⟨.read, p, f⟩ = .ok bpm₂ := by
    rw [dropGuard]
    split
    · obtain ⟨r', hr'⟩ := ArcReplacer.setEvictable_ok (B := B) hroom f
      exact ⟨_, bind_eq_ok.mpr ⟨r', hr', rfl⟩⟩
    · exact ⟨_, rfl⟩
  have hdone : bpm.flushFrame B p f = .ok (flushed, bpm₂) :=
    bind_eq_ok.mpr ⟨_, frame_eq_ok.mpr ⟨hlt, rfl⟩, bind_eq_ok.mpr ⟨_, newGuard_ok .read hr,
      bind_eq_ok.mpr ⟨_, hflush, bind_eq_ok.mpr ⟨bpm₂, hdrop, rfl⟩⟩⟩⟩
  refine ⟨flushed, bpm₂, hdone, ?_⟩
  rcases dropGuard_cases hdrop with ⟨-, rfl⟩ | ⟨-, r', hr', rfl⟩
  · show bpm₁.arcReplacer.currSize ≤ _
    rw [harc, hcurr]
    exact Nat.le_succ _
  · obtain ⟨m, hm, rfl⟩ := ArcReplacer.setEvictable_eq_ok.mp hr'
    rw [B.addU32_eq hroom, harc, hcurr] at hm
    exact (Except.ok.inj hm).symm.le

/-- The loop of `flush_all_pages` completes. -/
theorem flushEntries_ok (entries : List (PageId × FrameId)) :
    ∀ {bpm : BufferPoolManager}, bpm.Tracking n →
      (∀ e ∈ entries, bpm.pageTable.lookup e.1 = some e.2) →
      bpm.arcReplacer.currSize + entries.length < 2 ^ 32 →
      ∃ bpm', bpm.flushEntries B entries = .ok bpm' := by
  induction entries with
  | nil =>
      intro bpm _ _ _
      exact ⟨bpm, rfl⟩
  | cons e rest ih =>
      intro bpm h hmapped hsize
      obtain ⟨p, f⟩ := e
      rw [List.length_cons] at hsize
      have hp : bpm.pageTable.lookup p = some f := hmapped (p, f) List.mem_cons_self
      obtain ⟨flushed, bpm₁, hflush, hgrow⟩ := flushFrame_ok (B := B) h hp (by omega)
      have hsame := (flushFrame_samePages hflush).1
      obtain ⟨bpm', hrest⟩ := ih (h.flushFrame hp hflush) (fun e he => by
        rw [hsame]
        exact hmapped e (List.mem_cons_of_mem _ he)) (by omega)
      exact ⟨bpm', bind_eq_ok.mpr ⟨_, hflush, hrest⟩⟩

theorem flushAllPages_ok (h : bpm.Tracking n)
    (hsize : bpm.arcReplacer.currSize + n < 2 ^ 32) (order : HashOrder) :
    ∃ flushed bpm', bpm.flushAllPages B order = .ok (flushed, bpm') := by
  rw [flushAllPages]
  split
  · exact ⟨_, _, rfl⟩
  · have hperm := order.perm bpm.pageTable
    have hlen : (order.entries bpm.pageTable).length ≤ n := by
      have hpart := h.partition.length
      rw [hperm.length_eq, List.length_map]
      rw [mappedFrames, List.length_map] at hpart
      omega
    obtain ⟨bpm', hloop⟩ := flushEntries_ok (B := B) (order.entries bpm.pageTable) h (by
      intro e he
      obtain ⟨⟨p, f⟩, hent, rfl⟩ := List.mem_map.mp (hperm.mem_iff.mp he)
      exact AList.mem_lookup_iff.mpr hent) (by omega)
    exact ⟨true, bpm', bind_eq_ok.mpr ⟨bpm', hloop, rfl⟩⟩

/-- **After `flush_all_pages`** the disk alone has every page. -/
theorem flushAllPages_contents (hc : bpm.Coherent n σ L) (hd : bpm.Durable) {order : HashOrder}
    {flushed : Bool} (h : bpm.flushAllPages B order = .ok (flushed, bpm')) {p : PageId}
    (hL : L p) : bpm'.diskManager.contents p = some (σ p) := by
  obtain ⟨hc', hd'⟩ : bpm'.Coherent n σ L ∧ bpm'.Durable :=
    flushAllPages_induction (J := fun bpm => bpm.Coherent n σ L ∧ bpm.Durable)
      (fun _ _ _ _ _ hJ hp hflush => ⟨hJ.1.flushFrame hp hflush, hJ.2.flushFrame hJ.1 hp hflush⟩)
      ⟨hc, hd⟩ h
  cases hp : bpm'.pageTable.lookup p with
  | none => exact hc'.onDisk p hL hp
  | some f =>
      have hclean : (bpm'.frames f).isDirty = false := by
        have hp' := hp
        rw [(flushAllPages_samePages h).1] at hp'
        exact flushAllPages_clean hp' h
      rw [hd' p f hp hclean, hc'.resident p f hp]

end BufferPoolManager

end StorageEngine
