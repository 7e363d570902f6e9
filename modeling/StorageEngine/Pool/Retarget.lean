import StorageEngine.Lib.Matches
import StorageEngine.Pool.Recency
import StorageEngine.Pool.Totality

/-!
The pool with another target size.

Without overflow checks the target size wraps around, and the pool goes on.
All it decides is the list that is searched for a victim first, and there some
size in range decides alike. So from a state whose target size is out of range
the pool does what it does from one whose is not.
-/

namespace StorageEngine

open Lib

namespace ArcReplacer

def retarget (r : ArcReplacer) (t : ℕ) : ArcReplacer := { r with mruTargetSize := t }

/-- With either target size the same list comes first, or one of the lists is
empty. -/
def SameVictims (r : ArcReplacer) (t : ℕ) : Prop :=
  (r.retarget t).preferred = r.preferred ∨ ∃ side : Side, side.list r = []

section Retarget

variable {B : Build} {r r' : ArcReplacer} {t : ℕ} {f : FrameId} {p : PageId}

theorem SameVictims.symm (h : r.SameVictims t) : (r.retarget t).SameVictims r.mruTargetSize := by
  obtain hsame | ⟨side, hnil⟩ := h
  · exact Or.inl hsame.symm
  · exact Or.inr ⟨side, by cases side <;> exact hnil⟩

/-- A target size in range, and not zero, that decides alike. -/
theorem exists_sameVictims (hpos : 1 ≤ r.replacerSize)
    (hroom : r.mru.length + r.mfu.length ≤ r.replacerSize) :
    ∃ t, 1 ≤ t ∧ t ≤ r.replacerSize ∧ r.SameVictims t := by
  by_cases hmru : r.mru = []
  · exact ⟨1, le_rfl, hpos, Or.inr ⟨.mru, hmru⟩⟩
  by_cases hmfu : r.mfu = []
  · exact ⟨1, le_rfl, hpos, Or.inr ⟨.mfu, hmfu⟩⟩
  have hmru := List.length_pos_iff.mpr hmru
  have hmfu := List.length_pos_iff.mpr hmfu
  by_cases hlow : r.mruTargetSize ≤ r.mru.length
  · refine ⟨1, le_rfl, hpos, Or.inl ?_⟩
    exact (if_pos hmru).trans (if_pos hlow).symm
  · refine ⟨r.replacerSize, hpos, le_rfl, Or.inl ?_⟩
    exact (if_neg (show ¬r.replacerSize ≤ r.mru.length by omega)).trans (if_neg hlow).symm

/-! ### Accesses -/

theorem setEvictable_retarget (B : Build) (r : ArcReplacer) (t : ℕ) (f : FrameId) :
    Matches (fun r₁ r₂ => r₂ = r₁.retarget t) (r.setEvictable B f)
      ((r.retarget t).setEvictable B f) :=
  .next _ fun _ => .ok rfl

theorem increaseTarget_retarget (hB : B.overflowChecks = false) (hp : p ∈ r.mruGhost) (t : ℕ) :
    Matches (fun _ _ => True) (r.increaseTarget B) ((r.retarget t).increaseTarget B) := by
  intro t₁ ht₁
  have hsize := ((increaseTarget_ok_iff hp).mp ⟨t₁, ht₁⟩).1
  obtain ⟨t₂, ht₂⟩ := (increaseTarget_ok_iff (B := B) (r := r.retarget t) hp).mpr
    ⟨hsize, fun hB' => by simp [hB] at hB'⟩
  exact ⟨t₂, ht₂, trivial⟩

theorem decreaseTarget_retarget (hB : B.overflowChecks = false) (hp : p ∈ r.mfuGhost) (t : ℕ) :
    Matches (fun _ _ => True) (r.decreaseTarget B) ((r.retarget t).decreaseTarget B) := by
  intro t₁ _
  obtain ⟨t₂, ht₂⟩ := (decreaseTarget_ok_iff (B := B) (r := r.retarget t) hp).mpr
    fun hB' => by simp [hB] at hB'
  exact ⟨t₂, ht₂, trivial⟩

/-- Where the target size may wrap around, an access does the same to the
lists with any other one. -/
theorem recordAccess_retarget (hB : B.overflowChecks = false) (r : ArcReplacer) (t : ℕ)
    (f : FrameId) (p : PageId) :
    Matches (fun r₁ r₂ => ∃ t', r₂ = r₁.retarget t') (r.recordAccess B f p)
      ((r.retarget t).recordAccess B f p) := by
  refine .ite (fun _ => .ok ⟨t, rfl⟩) fun _ => .ite (fun hp => ?_) fun _ => .ite (fun hp => ?_)
    fun _ => .ite (fun _ => .ok ⟨t, rfl⟩) fun _ => .ite (fun _ => ?_) fun _ => .ok ⟨t, rfl⟩
  · exact .bind (increaseTarget_retarget hB hp t) fun t₁ t₂ _ => .ok ⟨t₂, rfl⟩
  · exact .bind (decreaseTarget_retarget hB hp t) fun t₁ t₂ _ => .ok ⟨t₂, rfl⟩
  · exact .ite (fun _ => .ok ⟨t, rfl⟩) fun _ => .ok ⟨t, rfl⟩

/-! ### Victims -/

/-- `evict`, with the list it looks at first. -/
def search (B : Build) (side : Side) (r : ArcReplacer) :
    Except Panic (Option FrameId × ArcReplacer) := do
  match ← side.evict B r with
  | (some evicted, r') => return (some evicted, r')
  | (none, r') => side.other.evict B r'

theorem Side.evict_of_nil {side : Side} (h : side.list r = []) :
    side.evict B r = .ok (none, r) := by
  cases side with
  | mru =>
      have hmru : r.mru = [] := h
      rw [Side.evict, evictFromMruGhost, hmru]
      rfl
  | mfu =>
      have hmfu : r.mfu = [] := h
      rw [Side.evict, evictFromMfuGhost, hmfu]
      rfl

theorem search_of_nil {side : Side} (h : side.list r = []) :
    search B side r = side.other.evict B r := by
  rw [search, Side.evict_of_nil h]
  rfl

theorem search_of_other_nil {side : Side} (h : side.other.list r = []) :
    search B side r = side.evict B r := by
  rw [search]
  cases hscan : side.evict B r with
  | error e => rfl
  | ok out =>
      obtain ⟨o, r'⟩ := out
      rcases Side.evict_cases hscan with ⟨rfl, rfl, -⟩ | ⟨f, p, rfl, -⟩
      · exact Side.evict_of_nil h
      · rfl

/-- With a list empty it makes no difference which one comes first. -/
theorem search_other {side empty : Side} (h : empty.list r = []) :
    search B side.other r = search B side r := by
  have hother : side.other.other = side := by cases side <;> rfl
  obtain rfl | rfl : side = empty ∨ side.other = empty := by
    cases side <;> cases empty <;> simp [Side.other]
  · rw [search_of_nil h, search_of_other_nil (by rwa [hother])]
  · rw [search_of_nil h, search_of_other_nil h, hother]

theorem Side.evict_retarget (B : Build) (side : Side) (r : ArcReplacer) (t : ℕ) :
    Matches (fun e₁ e₂ => e₂ = (e₁.1, e₁.2.retarget t)) (side.evict B r)
      (side.evict B (r.retarget t)) := by
  cases side with
  | mru =>
      simp only [Side.evict, evictFromMruGhost, retarget]
      cases lastEvictable r.evictablePages r.mru with
      | none => exact .ok rfl
      | some e => exact .next _ fun _ => .ok rfl
  | mfu =>
      simp only [Side.evict, evictFromMfuGhost, retarget]
      cases lastEvictable r.evictablePages r.mfu with
      | none => exact .ok rfl
      | some e => exact .next _ fun _ => .ok rfl

theorem search_retarget (B : Build) (side : Side) (r : ArcReplacer) (t : ℕ) :
    Matches (fun e₁ e₂ => e₂ = (e₁.1, e₁.2.retarget t)) (search B side r)
      (search B side (r.retarget t)) := by
  refine .bind (Side.evict_retarget B side r t) ?_
  rintro ⟨o, r'⟩ _ rfl
  cases o with
  | some f => exact .ok rfl
  | none => exact Side.evict_retarget B side.other r' t

theorem evict_retarget (h : r.SameVictims t) :
    Matches (fun e₁ e₂ => e₂ = (e₁.1, e₁.2.retarget t)) (r.evict B) ((r.retarget t).evict B) := by
  rw [evict_eq, evict_eq]
  show Matches _ (search B r.preferred r) (search B (r.retarget t).preferred (r.retarget t))
  by_cases hsame : (r.retarget t).preferred = r.preferred
  · rw [hsame]
    exact search_retarget B _ r t
  · obtain ⟨empty, hempty⟩ := h.resolve_left hsame
    have hother : (r.retarget t).preferred = r.preferred.other := by
      cases hnew : (r.retarget t).preferred <;> cases hold : r.preferred <;>
        simp_all [Side.other]
    rw [hother, ← search_other hempty]
    exact search_retarget B _ r t

end Retarget

end ArcReplacer

namespace BufferPoolManager

def retarget (bpm : BufferPoolManager) (t : ℕ) : BufferPoolManager :=
  { bpm with arcReplacer := bpm.arcReplacer.retarget t }

section Retarget

variable {B : Build} {bpm : BufferPoolManager} {n t : ℕ}

theorem Partition.retarget (h : bpm.Partition n) (t : ℕ) : (bpm.retarget t).Partition n :=
  h.congr rfl rfl rfl h.tracked

theorem Tracking.retarget (h : bpm.Tracking n) (t : ℕ) : (bpm.retarget t).Tracking n :=
  h.congr (h.partition.retarget t) rfl (List.Perm.refl _) le_rfl rfl rfl rfl h.marked

/-- A pool that tracks its residents has a target size in range that decides
alike. -/
theorem Tracking.exists_sameVictims (h : bpm.Tracking n) (hpos : 1 ≤ n) :
    ∃ t, 1 ≤ t ∧ t ≤ n ∧ bpm.arcReplacer.SameVictims t := by
  have hlen := h.entries.length_eq
  have hall := h.partition.length
  simp only [List.length_append, residents, mappedFrames, List.length_map] at hlen hall
  obtain rfl := h.size
  exact ArcReplacer.exists_sameVictims hpos (by omega)

theorem request_retarget (bpm : BufferPoolManager) (t : ℕ) (type : DiskRequestType)
    (p : PageId) (data : Page) :
    Matches (fun a b => b = (a.1, a.2.retarget t)) (bpm.request type p data)
      ((bpm.retarget t).request type p data) :=
  .next _ fun _ => .ok rfl

theorem newPage_retarget (bpm : BufferPoolManager) (t : ℕ) :
    Matches (fun a b => b = (a.1, a.2.retarget t)) bpm.newPage (bpm.retarget t).newPage := by
  refine .bind (request_retarget { bpm with nextPageId := bpm.nextPageId + 1 } t _ _ _) ?_
  rintro ⟨reply, bpm'⟩ _ rfl
  exact .ok rfl

theorem dropGuard_retarget (B : Build) (bpm : BufferPoolManager) (t : ℕ) (g : Guard) :
    Matches (fun a b => b = a.retarget t) (bpm.dropGuard B g)
      ((bpm.retarget t).dropGuard B g) := by
  refine .ite (fun _ => ?_) fun _ => .ok rfl
  refine .bind (ArcReplacer.setEvictable_retarget B bpm.arcReplacer t g.frameId) ?_
  rintro r _ rfl
  exact .ok rfl

theorem newGuard_retarget (hB : B.overflowChecks = false) (bpm : BufferPoolManager) (t : ℕ)
    (kind : GuardKind) (p : PageId) (f : FrameId) :
    Matches (fun a b => ∃ t', b = (a.1, a.2.retarget t')) (bpm.newGuard B kind p f)
      ((bpm.retarget t).newGuard B kind p f) := by
  refine .bind (ArcReplacer.recordAccess_retarget hB bpm.arcReplacer t f p) ?_
  rintro r _ ⟨t', rfl⟩
  exact .ok ⟨t', rfl⟩

theorem loadPage_retarget (hB : B.overflowChecks = false) (bpm : BufferPoolManager) (t : ℕ)
    (kind : GuardKind) (p : PageId) :
    Matches (fun a b => ∃ t', b = (a.1, a.2.retarget t')) (bpm.loadPage B kind p)
      ((bpm.retarget t).loadPage B kind p) := by
  rw [loadPage, loadPage, show (bpm.retarget t).freeFrames = bpm.freeFrames from rfl]
  cases bpm.freeFrames with
  | nil => exact .error _ _
  | cons f rest =>
      refine .bind (request_retarget { bpm with freeFrames := rest } t _ _ _) ?_
      rintro ⟨reply, bpm'⟩ _ rfl
      refine .next (bpm'.frame f) fun header => .next _ fun data => ?_
      exact newGuard_retarget hB _ t kind p f

theorem evictFrame_retarget (h : bpm.arcReplacer.SameVictims t) (order : HashOrder) :
    Matches (fun a b => b = a.retarget t) (bpm.evictFrame B order)
      ((bpm.retarget t).evictFrame B order) := by
  refine .bind (ArcReplacer.evict_retarget h) ?_
  rintro ⟨o, r⟩ _ rfl
  refine .next _ fun f => .next (bpm.frame f) fun header => .next _ fun e => ?_
  refine .bind (request_retarget { bpm with
    arcReplacer := r
    freeFrames := f :: bpm.freeFrames
    pageTable := bpm.pageTable.erase e.1 } t _ _ _) ?_
  rintro ⟨reply, bpm'⟩ _ rfl
  exact .ok rfl

/-- **A request** with a target size that decides alike is for the same guard. -/
theorem checkPage_retarget (hB : B.overflowChecks = false) (h : bpm.arcReplacer.SameVictims t)
    (order : HashOrder) (kind : GuardKind) (p : PageId) :
    Matches (fun a b => ∃ t', b = (a.1, a.2.retarget t')) (bpm.checkPage B order kind p)
      ((bpm.retarget t).checkPage B order kind p) := by
  rw [checkPage, checkPage, show (bpm.retarget t).pageTable = bpm.pageTable from rfl]
  cases bpm.pageTable.lookup p with
  | some f => exact .next (bpm.frame f) fun _ => newGuard_retarget hB bpm t kind p f
  | none =>
      refine .ite (fun _ => loadPage_retarget hB bpm t kind p) fun _ => ?_
      refine .bind (evictFrame_retarget h order) ?_
      rintro bpm' _ rfl
      exact loadPage_retarget hB bpm' t kind p

/-- The victims are in the same frame. -/
theorem victim_retarget (h : bpm.arcReplacer.SameVictims t) {v : FrameId × ArcReplacer}
    (hv : v ∈ (bpm.retarget t).victim B) : ∃ r, (v.1, r) ∈ bpm.victim B := by
  rw [victim] at hv
  split at hv
  · next f r hfree hevict =>
      obtain rfl := Option.mem_some_iff.mp hv
      obtain ⟨out, hevict', rfl⟩ := ArcReplacer.evict_retarget h.symm _ hevict
      exact ⟨_, victim_of_evict hfree hevict'⟩
  · exact absurd hv (Option.not_mem_none v)

end Retarget

end BufferPoolManager

end StorageEngine
