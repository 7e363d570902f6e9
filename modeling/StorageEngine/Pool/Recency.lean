import StorageEngine.Pool.ArcCalls

/-!
Which entry `evict` picks.

The replacer never compares access times: an entry is put at the front of
its list when it is accessed, and stays behind those accessed later. Each
list is therefore ordered by the time of the last access, and the scan from
the back finds the oldest entry whose frame is evictable.
-/

namespace StorageEngine

open Lib

namespace ArcReplacer

/-- One of the two lists of entries, with its ghost list. -/
inductive Side
  | mru
  | mfu
  deriving DecidableEq

namespace Side

def list : Side → ArcReplacer → List (FrameId × PageId)
  | .mru, r => r.mru
  | .mfu, r => r.mfu

def ghost : Side → ArcReplacer → List PageId
  | .mru, r => r.mruGhost
  | .mfu, r => r.mfuGhost

def other : Side → Side
  | .mru => .mfu
  | .mfu => .mru

/-- Some entry of the list has an evictable frame. -/
def HasEvictable (side : Side) (r : ArcReplacer) : Prop :=
  ∃ e ∈ side.list r, e.1 ∈ r.evictablePages

instance (side : Side) (r : ArcReplacer) : Decidable (side.HasEvictable r) :=
  inferInstanceAs (Decidable (∃ e ∈ side.list r, e.1 ∈ r.evictablePages))

end Side

/-- The list `evict` looks at first. -/
def preferred (r : ArcReplacer) : Side :=
  if r.mruTargetSize ≤ r.mru.length then .mru else .mfu

/-- The list the victim is in, where there is one. -/
def victimSide (r : ArcReplacer) : Side :=
  if r.preferred.HasEvictable r then r.preferred else r.preferred.other

/-- The time of the last access to an entry, the calls being counted from
one, and zero where there was none. -/
def lastAccess (e : FrameId × PageId) : List ArcCall → ℕ
  | [] => 0
  | call :: hist => if call = .recordAccess e.1 e.2 then hist.length + 1 else lastAccess e hist

/-- The entries are listed from the most to the least recent last access. -/
def ByRecency (hist : List ArcCall) (list : List (FrameId × PageId)) : Prop :=
  list.Pairwise fun e e' => lastAccess e' hist < lastAccess e hist

/-- An entry leaves its list for the front of the ghost list, and its frame
is no longer evictable, so that `curr_size` goes down by one, as the build has
it; everything else stays, in its order. -/
structure Evicts (B : Build) (r : ArcReplacer) (side : Side) (f : FrameId) (p : PageId)
    (r' : ArcReplacer) : Prop where
  evictable : f ∈ r.evictablePages
  list : ∃ pre post, side.list r = pre ++ (f, p) :: post ∧ side.list r' = pre ++ post
  ghost : side.ghost r' = p :: side.ghost r
  otherList : side.other.list r' = side.other.list r
  otherGhost : side.other.ghost r' = side.other.ghost r
  evictablePages : r'.evictablePages = r.evictablePages.erase f
  timestampAccess : r'.timestampAccess = r.timestampAccess.erase (f, p)
  currSize : B.subU32 r.currSize 1 = .ok r'.currSize
  mruTargetSize : r'.mruTargetSize = r.mruTargetSize
  replacerSize : r'.replacerSize = r.replacerSize

/-- What `evict` does after the calls `hist`. -/
structure EvictsOldest (B : Build) (hist : List ArcCall) (r : ArcReplacer) : Prop where
  none_iff : (∃ r', r.evict B = .ok (none, r')) ↔
    ∀ e ∈ r.mru ++ r.mfu, e.1 ∉ r.evictablePages
  unchanged : ∀ r', r.evict B = .ok (none, r') → r' = r
  oldest : (∃ e ∈ r.mru ++ r.mfu, e.1 ∈ r.evictablePages) →
    ∃ f p r', r.evict B = .ok (some f, r') ∧ r.Evicts B r.victimSide f p r' ∧
      ∀ e ∈ r.victimSide.list r, e.1 ∈ r.evictablePages →
        lastAccess (f, p) hist ≤ lastAccess e hist

section Recency

variable {B : Build} {hist : List ArcCall} {r r' : ArcReplacer} {f : FrameId} {p : PageId}

/-! ### The order of the lists -/

theorem lastAccess_le (e : FrameId × PageId) (hist : List ArcCall) :
    lastAccess e hist ≤ hist.length := by
  induction hist with
  | nil => exact le_rfl
  | cons call hist ih =>
      rw [lastAccess, List.length_cons]
      split
      · exact le_rfl
      · exact ih.trans (Nat.le_succ _)

theorem lastAccess_self (f : FrameId) (p : PageId) (hist : List ArcCall) :
    lastAccess (f, p) (.recordAccess f p :: hist) = hist.length + 1 :=
  if_pos rfl

theorem lastAccess_of_ne {call : ArcCall} {e : FrameId × PageId}
    (h : call ≠ .recordAccess e.1 e.2) : lastAccess e (call :: hist) = lastAccess e hist :=
  if_neg h

/-- Calls on other entries keep the order of a list. -/
theorem ByRecency.congr {call : ArcCall} {l : List (FrameId × PageId)}
    (h : ByRecency hist l) (hcall : ∀ e ∈ l, call ≠ .recordAccess e.1 e.2) :
    ByRecency (call :: hist) l := by
  refine List.Pairwise.imp_of_mem ?_ h
  intro e e' he he' hlt
  rwa [lastAccess_of_ne (hcall e he), lastAccess_of_ne (hcall e' he')]

/-- An accessed entry belongs at the front. -/
theorem ByRecency.cons {l : List (FrameId × PageId)} (h : ByRecency hist l)
    (hmem : (f, p) ∉ l) : ByRecency (.recordAccess f p :: hist) ((f, p) :: l) := by
  have hne : ∀ e ∈ l, ArcCall.recordAccess f p ≠ .recordAccess e.1 e.2 := by
    rintro ⟨f', p'⟩ he heq
    obtain ⟨rfl, rfl⟩ := ArcCall.recordAccess.inj heq
    exact hmem he
  refine List.pairwise_cons.mpr ⟨?_, h.congr hne⟩
  intro e he
  rw [lastAccess_self, lastAccess_of_ne (hne e he)]
  exact Nat.lt_succ_of_le (lastAccess_le e hist)

/-- Behind the last evictable entry none is evictable, and the entries before
it were accessed later. -/
theorem ByRecency.oldest {S : Finset FrameId} {pre post : List (FrameId × PageId)}
    {e : FrameId × PageId} (h : ByRecency hist (pre ++ e :: post))
    (hpost : ∀ x ∈ post, x.1 ∉ S) {x : FrameId × PageId} (hx : x ∈ pre ++ e :: post)
    (hS : x.1 ∈ S) : lastAccess e hist ≤ lastAccess x hist := by
  rcases List.mem_append.mp hx with hx | hx
  · exact ((List.pairwise_append.mp h).2.2 x hx e List.mem_cons_self).le
  rcases List.mem_cons.mp hx with rfl | hx
  · exact le_rfl
  · exact absurd hS (hpost x hx)

/-- Both lists are in order. -/
structure InOrder (hist : List ArcCall) (r : ArcReplacer) : Prop where
  mru : ByRecency hist r.mru
  mfu : ByRecency hist r.mfu

theorem InOrder.list (h : r.InOrder hist) : (side : Side) → ByRecency hist (side.list r)
  | .mru => h.mru
  | .mfu => h.mfu

theorem InOrder.recorded (h : r.InOrder hist) (hr : Recorded B r f p r') :
    r'.InOrder (.recordAccess f p :: hist) := by
  have hother : ∀ l : List (FrameId × PageId), (f, p) ∉ l → ∀ e ∈ l,
      ArcCall.recordAccess f p ≠ .recordAccess e.1 e.2 := by
    rintro l hl ⟨f', p'⟩ he heq
    obtain ⟨rfl, rfl⟩ := ArcCall.recordAccess.inj heq
    exact hl he
  have hmiss : (f, p) ∉ r.mru ++ r.mfu → (f, p) ∉ r.mru ∧ (f, p) ∉ r.mfu := by
    simp
  have hmru : ∀ l, ByRecency hist l → (f, p) ∉ l → ByRecency (.recordAccess f p :: hist) l :=
    fun l hl hmem => hl.congr (hother l hmem)
  -- an entry is put at the front of one list, and is in none of the rest
  cases hr with
  | promote =>
      exact ⟨hmru _ (h.mru.sublist List.filter_sublist) (by simp),
        ByRecency.cons (h.mfu.sublist List.filter_sublist) (by simp)⟩
  | mruGhostHit miss => exact ⟨hmru _ h.mru (hmiss miss).1, h.mfu.cons (hmiss miss).2⟩
  | mfuGhostHit miss => exact ⟨hmru _ h.mru (hmiss miss).1, h.mfu.cons (hmiss miss).2⟩
  | dropMruGhost miss => exact ⟨h.mru.cons (hmiss miss).1, hmru _ h.mfu (hmiss miss).2⟩
  | dropMfuGhost miss => exact ⟨h.mru.cons (hmiss miss).1, hmru _ h.mfu (hmiss miss).2⟩
  | enter miss => exact ⟨h.mru.cons (hmiss miss).1, hmru _ h.mfu (hmiss miss).2⟩
  | untracked miss => exact ⟨hmru _ h.mru (hmiss miss).1, hmru _ h.mfu (hmiss miss).2⟩

/-- No other call accesses an entry, and none changes the order of a list. -/
theorem InOrder.sublists {call : ArcCall} (h : r.InOrder hist)
    (hcall : ∀ f p, call ≠ .recordAccess f p) (hmru : r'.mru.Sublist r.mru)
    (hmfu : r'.mfu.Sublist r.mfu) : r'.InOrder (call :: hist) :=
  ⟨ByRecency.congr (h.mru.sublist hmru) fun _ _ => hcall _ _,
    ByRecency.congr (h.mfu.sublist hmfu) fun _ _ => hcall _ _⟩

theorem Evicted.sublists (hr : Evicted B r f p r') :
    r'.mru.Sublist r.mru ∧ r'.mfu.Sublist r.mfu := by
  cases hr with
  | fromMru pre post n hf list =>
      rw [list]
      exact ⟨List.Sublist.append (List.Sublist.refl _) (List.sublist_cons_self _ _),
        List.Sublist.refl _⟩
  | fromMfu pre post n hf list =>
      rw [list]
      exact ⟨List.Sublist.refl _,
        List.Sublist.append (List.Sublist.refl _) (List.sublist_cons_self _ _)⟩

theorem remove_sublists (r : ArcReplacer) (f : FrameId) :
    (r.remove f).mru.Sublist r.mru ∧ (r.remove f).mfu.Sublist r.mfu := by
  rw [remove]
  split
  · exact ⟨List.Sublist.refl _, List.Sublist.refl _⟩
  · refine ⟨List.filter_sublist, ?_⟩
    simp only
    split
    · exact List.filter_sublist
    · exact List.Sublist.refl _

theorem step_inOrder {call : ArcCall} (h : r.InOrder hist) (hstep : step B call r = some r') :
    r'.InOrder (call :: hist) := by
  cases call with
  | recordAccess f p => exact h.recorded (recordAccess_recorded (step_recordAccess.mp hstep))
  | setEvictable f =>
      obtain ⟨n, -, rfl⟩ := setEvictable_eq_ok.mp (step_setEvictable.mp hstep)
      exact h.sublists nofun (List.Sublist.refl _) (List.Sublist.refl _)
  | evict =>
      obtain ⟨o, hevict⟩ := step_evict.mp hstep
      rcases evict_cases hevict with ⟨-, rfl, -⟩ | ⟨f, p, -, hr⟩
      · exact h.sublists nofun (List.Sublist.refl _) (List.Sublist.refl _)
      · exact h.sublists nofun hr.sublists.1 hr.sublists.2
  | remove f =>
      obtain rfl := step_remove.mp hstep
      exact h.sublists nofun (remove_sublists r f).1 (remove_sublists r f).2

/-! ### The two scans -/

/-- `evict_from_mru_ghost` and `evict_from_mfu_ghost` -/
def Side.evict (B : Build) : Side → ArcReplacer → Except Panic (Option FrameId × ArcReplacer)
  | .mru, r => r.evictFromMruGhost B
  | .mfu, r => r.evictFromMfuGhost B

theorem evict_eq (B : Build) (r : ArcReplacer) : r.evict B = (do
    match ← r.preferred.evict B r with
    | (some evicted, r') => return (some evicted, r')
    | (none, r') => r.preferred.other.evict B r') := by
  rw [ArcReplacer.evict, preferred]
  split
  · rfl
  · rfl

/-- A scan takes the last evictable entry of its list. -/
theorem Side.evict_cases {side : Side} {o : Option FrameId} (h : side.evict B r = .ok (o, r')) :
    (o = none ∧ r' = r ∧ ¬side.HasEvictable r) ∨
      ∃ f p, o = some f ∧ r.Evicts B side f p r' ∧
        ∃ pre post, side.list r = pre ++ (f, p) :: post ∧
          ∀ e ∈ post, e.1 ∉ r.evictablePages := by
  cases side with
  | mru =>
      rcases evictFromMruGhost_cases h with
        ⟨rfl, rfl, hnone⟩ | ⟨f, p, pre, post, n, rfl, hf, hlist, hpost, hn, rfl⟩
      · refine Or.inl ⟨rfl, rfl, ?_⟩
        rintro ⟨e, he, hmark⟩
        exact hnone e he hmark
      · refine Or.inr ⟨f, p, rfl, ?_, pre, post, hlist, hpost⟩
        exact ⟨hf, ⟨pre, post, hlist, rfl⟩, rfl, rfl, rfl, rfl, rfl, hn, rfl, rfl⟩
  | mfu =>
      rcases evictFromMfuGhost_cases h with
        ⟨rfl, rfl, hnone⟩ | ⟨f, p, pre, post, n, rfl, hf, hlist, hpost, hn, rfl⟩
      · refine Or.inl ⟨rfl, rfl, ?_⟩
        rintro ⟨e, he, hmark⟩
        exact hnone e he hmark
      · refine Or.inr ⟨f, p, rfl, ?_, pre, post, hlist, hpost⟩
        exact ⟨hf, ⟨pre, post, hlist, rfl⟩, rfl, rfl, rfl, rfl, rfl, hn, rfl, rfl⟩

theorem Side.evict_completes (side : Side) (hcounts : r.CountsMarks B) :
    ∃ o r', side.evict B r = .ok (o, r') := by
  cases side with
  | mru => exact evictFromMruGhost_ok hcounts
  | mfu => exact evictFromMfuGhost_ok hcounts

/-- An entry of either list is in the preferred one or in the other. -/
theorem mem_lists_iff {e : FrameId × PageId} : e ∈ r.mru ++ r.mfu ↔
    e ∈ r.preferred.list r ∨ e ∈ r.preferred.other.list r := by
  rw [List.mem_append, preferred]
  split
  · exact Iff.rfl
  · exact or_comm

theorem exists_evictable_iff : (∃ e ∈ r.mru ++ r.mfu, e.1 ∈ r.evictablePages) ↔
    r.preferred.HasEvictable r ∨ r.preferred.other.HasEvictable r := by
  simp only [mem_lists_iff, Side.HasEvictable, or_and_right, exists_or]

/-- `evict` is a scan of the list the victim is in. -/
theorem evict_eq_victimSide (hcounts : r.CountsMarks B)
    (h : r.preferred.HasEvictable r ∨ r.preferred.other.HasEvictable r) :
    r.evict B = r.victimSide.evict B r ∧ r.victimSide.HasEvictable r := by
  obtain ⟨o, r', hscan⟩ := r.preferred.evict_completes hcounts
  rw [evict_eq, hscan, ok_bind, victimSide]
  rcases Side.evict_cases hscan with ⟨rfl, rfl, hnone⟩ | ⟨f, p, rfl, hev, pre, post, hlist, -⟩
  · rw [if_neg hnone]
    exact ⟨rfl, h.resolve_left hnone⟩
  · have hpref : r.preferred.HasEvictable r := ⟨(f, p), by simp [hlist], hev.evictable⟩
    rw [if_pos hpref, hscan]
    exact ⟨rfl, hpref⟩

/-- In order, the scan finds the oldest evictable entry. -/
theorem InOrder.evictsOldest (h : r.InOrder hist) (hcounts : r.CountsMarks B) :
    r.EvictsOldest B hist := by
  have hnone : ∀ r', r.evict B = .ok (none, r') →
      r' = r ∧ ∀ e ∈ r.mru ++ r.mfu, e.1 ∉ r.evictablePages := by
    intro r' hevict
    rcases evict_cases hevict with ⟨-, rfl, hnone⟩ | ⟨f, p, hsome, -⟩
    · exact ⟨rfl, hnone⟩
    · exact absurd hsome.symm (Option.some_ne_none f)
  refine ⟨⟨fun ⟨r', hevict⟩ => (hnone r' hevict).2, ?_⟩, fun r' hevict => (hnone r' hevict).1, ?_⟩
  · intro hno
    obtain ⟨o, r', hevict⟩ := evict_completes hcounts
    rcases evict_cases hevict with ⟨rfl, -, -⟩ | ⟨f, p, rfl, hr⟩
    · exact ⟨r', hevict⟩
    · exact absurd hr.evictable.1 (hno _ hr.mem)
  · intro hsome
    obtain ⟨hscan, hvictim⟩ := evict_eq_victimSide hcounts (exists_evictable_iff.mp hsome)
    obtain ⟨o, r', hevict⟩ := r.victimSide.evict_completes hcounts
    rcases Side.evict_cases hevict with
      ⟨-, -, hno⟩ | ⟨f, p, rfl, hev, pre, post, hlist, hpost⟩
    · exact absurd hvictim hno
    · -- what the scan passed over is not evictable, what it did not reach is more recent
      refine ⟨f, p, r', hscan.trans hevict, hev, fun e he hmark => ?_⟩
      have horder := h.list r.victimSide
      rw [hlist] at horder he
      exact horder.oldest hpost he hmark

end Recency

/-- **`evict` picks the least recently used evictable entry** of the
preferred list, or of the other one, in every run of calls. -/
theorem evictsOldest_throughout (B : Build) (c : ℕ) (calls : List ArcCall) :
    Throughout (step B) (fun hist r => ByRecency hist r.mru ∧ ByRecency hist r.mfu ∧
      r.EvictsOldest B hist) [] calls (new c) := by
  have hstep : Throughout (step B) (fun hist r => r.InOrder hist ∧ r.CountsMarks B) [] calls
      (new c) := by
    refine throughout_of_along (C := fun _ _ _ => True) ?_
      ⟨⟨List.Pairwise.nil, List.Pairwise.nil⟩, new_countsMarks B c⟩ (along_true _ _ _)
    rintro hist call r r' ⟨horder, hcounts⟩ - hstep
    exact ⟨step_inOrder horder hstep, step_countsMarks hcounts hstep⟩
  exact hstep.mono fun hist r h => ⟨h.1.mru, h.1.mfu, h.1.evictsOldest h.2⟩

end ArcReplacer

end StorageEngine
