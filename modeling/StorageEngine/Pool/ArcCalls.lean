import StorageEngine.Pool.Tracking

/-!
The replacer under any sequence of its calls.

The lists stay within the bounds ARC gives them as long as an access is to
an entry of `mru` or `mfu`, or brings a frame and a page neither of which
has one: then fewer frames than `replacer_size` are tracked, and the ghost
list whose last page has to go is not empty. The target size takes no part
in this.
-/

namespace StorageEngine

open Lib

/-- The calls that change a replacer. -/
inductive ArcCall
  | recordAccess (frameId : FrameId) (pageId : PageId)
  | setEvictable (frameId : FrameId)
  | evict
  | remove (frameId : FrameId)
  deriving DecidableEq

namespace ArcReplacer

def step (B : Build) : ArcCall → ArcReplacer → Option ArcReplacer
  | .recordAccess f p, r => (r.recordAccess B f p).toOption
  | .setEvictable f, r => (r.setEvictable B f).toOption
  | .evict, r => (r.evict B).toOption.map Prod.snd
  | .remove f, r => some (r.remove f)

/-- A call that may find the target size changed to any other value. -/
def steered (B : Build) : Option ℕ × ArcCall → ArcReplacer → Option ArcReplacer
  | (t, call), r => step B call { r with mruTargetSize := t.getD r.mruTargetSize }

/-- An access is to an entry, or brings a new frame and a new page. -/
def Admits (c : ℕ) (r : ArcReplacer) : ArcCall → Prop
  | .recordAccess f p => f < c ∧
      ((f, p) ∈ r.mru ++ r.mfu ∨ ∀ e ∈ r.mru ++ r.mfu, e.1 ≠ f ∧ e.2 ≠ p)
  | _ => True

instance (c : ℕ) (r : ArcReplacer) : (call : ArcCall) → Decidable (r.Admits c call)
  | .recordAccess _ _ => inferInstanceAs (Decidable (_ ∧ (_ ∨ _)))
  | .setEvictable _ => inferInstanceAs (Decidable True)
  | .evict => inferInstanceAs (Decidable True)
  | .remove _ => inferInstanceAs (Decidable True)

/-- The page ids of the four lists. -/
def listedPages (r : ArcReplacer) : List PageId :=
  (r.mru ++ r.mfu).map Prod.snd ++ (r.mruGhost ++ r.mfuGhost)

/-- The bounds of the lists, and what they have in common. -/
structure Arranged (c : ℕ) (r : ArcReplacer) : Prop where
  recent : r.mru.length + r.mruGhost.length ≤ c
  total : r.mru.length + r.mfu.length + r.mruGhost.length + r.mfuGhost.length ≤ 2 * c
  pages : r.listedPages.Nodup
  frames : ((r.mru ++ r.mfu).map Prod.fst).Nodup
  stamps : ∀ e, e ∈ r.timestampAccess ↔ e ∈ r.mru ++ r.mfu

/-- After an access its entry is listed. -/
def TracksLast : List (Option ℕ × ArcCall) → ArcReplacer → Prop
  | (_, .recordAccess f p) :: _, r => (f, p) ∈ r.mru ++ r.mfu
  | _, _ => True

section Steps

variable {B : Build} {r r' : ArcReplacer} {f : FrameId} {p : PageId}

theorem toOption_eq_some {α : Type} {x : Except Panic α} {a : α} :
    x.toOption = some a ↔ x = .ok a := by
  cases x <;> simp [Except.toOption]

theorem step_recordAccess :
    step B (.recordAccess f p) r = some r' ↔ r.recordAccess B f p = .ok r' :=
  toOption_eq_some

theorem step_setEvictable :
    step B (.setEvictable f) r = some r' ↔ r.setEvictable B f = .ok r' :=
  toOption_eq_some

theorem step_evict : step B .evict r = some r' ↔ ∃ o, r.evict B = .ok (o, r') := by
  simp only [step, Option.map_eq_some_iff, toOption_eq_some]
  constructor
  · rintro ⟨⟨o, r₁⟩, h, rfl⟩
    exact ⟨o, h⟩
  · rintro ⟨o, h⟩
    exact ⟨(o, r'), h, rfl⟩

theorem step_remove : step B (.remove f) r = some r' ↔ r' = r.remove f := by
  simp [step, eq_comm]

end Steps

/-! ### What `remove` takes out -/

section Remove

variable {r : ArcReplacer} {f : FrameId} {p : PageId} {l : List (FrameId × PageId)}

theorem pageOf_mem (h : pageOf l f = some p) : (f, p) ∈ l := by
  obtain ⟨e, he, rfl⟩ := Option.map_eq_some_iff.mp h
  obtain ⟨hmem, hf⟩ := List.mem_filter.mp (List.mem_of_getLast? he)
  obtain rfl : e.1 = f := by simpa using hf
  exact hmem

theorem pageOf_eq_none : pageOf l f = none ↔ ∀ e ∈ l, e.1 ≠ f := by
  simp [pageOf]

/-- With one entry a frame, `remove` takes out the frame's entry. -/
theorem remove_lists (hf : f ∉ r.evictablePages)
    (hnodup : ((r.mru ++ r.mfu).map Prod.fst).Nodup) :
    (r.remove f).mru = r.mru.filter (·.1 ≠ f) ∧ (r.remove f).mfu = r.mfu.filter (·.1 ≠ f) := by
  rw [remove, if_neg hf]
  refine ⟨rfl, ?_⟩
  simp only
  split
  · rfl
  · next hsome =>
      -- the frame's entry is in `mru`, so that there is none to take out of `mfu`
      have hsome : pageOf r.mru f ≠ none := fun hnone => hsome (by simp [hnone])
      obtain ⟨p, hp⟩ := Option.ne_none_iff_exists'.mp hsome
      rw [List.map_append] at hnodup
      refine (List.filter_eq_self.mpr fun e he => ?_).symm
      have hne := List.disjoint_of_nodup_append hnodup
        (List.mem_map_of_mem (f := Prod.fst) (pageOf_mem hp))
      have hfst := List.mem_map_of_mem (f := Prod.fst) he
      simp only [decide_eq_true_eq]
      exact fun heq => hne (heq ▸ hfst)

theorem remove_stamps (hf : f ∉ r.evictablePages)
    (hnodup : ((r.mru ++ r.mfu).map Prod.fst).Nodup)
    (hstamps : ∀ e, e ∈ r.timestampAccess ↔ e ∈ r.mru ++ r.mfu) (e : FrameId × PageId) :
    e ∈ (r.remove f).timestampAccess ↔ e ∈ r.mru ++ r.mfu ∧ e.1 ≠ f := by
  have hpage : ∀ p, (if (pageOf r.mru f).isNone then pageOf r.mfu f else pageOf r.mru f) = some p →
      (f, p) ∈ r.mru ++ r.mfu := by
    intro p hp
    split at hp
    · exact List.mem_append_right _ (pageOf_mem hp)
    · exact List.mem_append_left _ (pageOf_mem hp)
  rw [remove, if_neg hf]
  simp only
  split
  · next p hp =>
      rw [Finset.mem_erase, hstamps]
      constructor
      · rintro ⟨hne, hmem⟩
        refine ⟨hmem, fun hfst => hne ?_⟩
        exact List.inj_on_of_nodup_map hnodup hmem (hpage p hp) hfst
      · rintro ⟨hmem, hfst⟩
        exact ⟨fun he => hfst (by rw [he]), hmem⟩
  · next hnone =>
      have hmru : pageOf r.mru f = none := by
        by_contra hne
        simp [hne] at hnone
      rw [hmru] at hnone
      have hmfu : pageOf r.mfu f = none := by simpa using hnone
      rw [hstamps]
      refine ⟨fun hmem => ⟨hmem, ?_⟩, And.left⟩
      rcases List.mem_append.mp hmem with hmem | hmem
      · exact pageOf_eq_none.mp hmru e hmem
      · exact pageOf_eq_none.mp hmfu e hmem

end Remove

/-! ### One call -/

/-- What a run keeps: the lists are arranged, and the frames are those of the
pool. -/
structure Keeps (c : ℕ) (r : ArcReplacer) : Prop extends Arranged c r where
  size : r.replacerSize = c
  lt : ∀ e ∈ r.mru ++ r.mfu, e.1 < c

section Keeps

variable {B : Build} {c : ℕ} {r r' : ArcReplacer} {f : FrameId} {p : PageId}

theorem new_keeps (c : ℕ) : (new c).Keeps c where
  recent := Nat.zero_le c
  total := Nat.zero_le (2 * c)
  pages := List.nodup_nil
  frames := List.nodup_nil
  stamps := fun e => by simp [new]
  size := rfl
  lt := fun e he => absurd he List.not_mem_nil

theorem Keeps.nodup (h : r.Keeps c) : (r.mru ++ r.mfu).Nodup := List.Nodup.of_map _ h.frames

/-- A frame without an entry leaves room for one. -/
theorem Keeps.room (h : r.Keeps c) (hlt : f < c) (hf : ∀ e ∈ r.mru ++ r.mfu, e.1 ≠ f) :
    r.mru.length + r.mfu.length < c := by
  have hnodup : (f :: (r.mru ++ r.mfu).map Prod.fst).Nodup := by
    refine List.nodup_cons.mpr ⟨?_, h.frames⟩
    rintro hmem
    obtain ⟨e, he, rfl⟩ := List.mem_map.mp hmem
    exact hf e he rfl
  -- `c` frames are all there are, and the listed ones and `f` are different
  have hsub : f :: (r.mru ++ r.mfu).map Prod.fst ⊆ List.range c := by
    intro x hx
    rw [List.mem_range]
    rcases List.mem_cons.mp hx with rfl | hx
    · exact hlt
    · obtain ⟨e, he, rfl⟩ := List.mem_map.mp hx
      exact h.lt e he
  have hlen := (hnodup.subperm hsub).length_le
  simp only [List.length_cons, List.length_map, List.length_append, List.length_range] at hlen
  omega

/-- A page that is brought in is listed once. -/
theorem nodup_cons_of_sublist {l : List PageId} (h : r.listedPages.Nodup)
    (hl : l.Sublist r.listedPages) (hp : p ∉ l) (hperm : r'.listedPages.Perm (p :: l)) :
    r'.listedPages.Nodup :=
  hperm.nodup_iff.mpr (List.nodup_cons.mpr ⟨hp, h.sublist hl⟩)

theorem Keeps.recorded_of_mem (h : r.Keeps c) (hr : Recorded B r f p r')
    (hmem : (f, p) ∈ r.mru ++ r.mfu) : r'.Keeps c := by
  obtain ⟨hperm, hmruGhost, hmfuGhost, hmru⟩ := hr.perm_of_mem hmem h.nodup
  have hlen := hperm.length_eq
  simp only [List.length_append] at hlen
  have hrecent := h.recent
  have htotal := h.total
  refine ⟨⟨?_, ?_, ?_, ?_, ?_⟩, hr.replacerSize_eq.trans h.size, ?_⟩
  · rw [hmruGhost]
    omega
  · rw [hmruGhost, hmfuGhost]
    omega
  · rw [listedPages, hmruGhost, hmfuGhost]
    exact ((hperm.map _).append_right _).nodup_iff.mpr h.pages
  · exact (hperm.map _).nodup_iff.mpr h.frames
  · intro e
    rw [hr.timestampAccess_eq, Finset.mem_insert, h.stamps, hperm.mem_iff]
    exact or_iff_right_of_imp fun he => he ▸ hmem
  · exact fun e he => h.lt e (hperm.mem_iff.mp he)

theorem Keeps.recorded_of_new (h : r.Keeps c) (hr : Recorded B r f p r') (hlt : f < c)
    (hnew : ∀ e ∈ r.mru ++ r.mfu, e.1 ≠ f ∧ e.2 ≠ p) :
    r'.Keeps c ∧ (f, p) ∈ r'.mru ++ r'.mfu := by
  have hmiss : (f, p) ∉ r.mru ++ r.mfu := fun hmem => (hnew _ hmem).1 rfl
  have hroom := h.room hlt fun e he => (hnew e he).1
  have hsize := h.size
  have hghosts : (r.mruGhost ++ r.mfuGhost).Nodup := h.pages.of_append_right
  obtain ⟨hperm, hmru, hmfu, hpmru, hpmfu, hrecent⟩ := hr.perm_of_notMem hmiss
    (by omega) (by rw [hsize]; exact h.recent)
    (fun q hq hq' => List.disjoint_of_nodup_append hghosts hq hq')
  have htotal := hr.total_of_notMem hmiss (by omega) (by have := h.total; omega)
  refine ⟨⟨⟨by omega, by omega, ?_, ?_, ?_⟩, hr.replacerSize_eq.trans hsize, ?_⟩, ?_⟩
  · refine nodup_cons_of_sublist h.pages
      (List.Sublist.append (List.Sublist.refl _) (hmru.append hmfu)) ?_
      ((hperm.map _).append_right _)
    simp only [List.mem_append, not_or, List.mem_map, not_exists, not_and]
    exact ⟨fun e he => (hnew e (List.mem_append.mpr he)).2, hpmru, hpmfu⟩
  · refine (hperm.map _).nodup_iff.mpr (List.nodup_cons.mpr ⟨?_, h.frames⟩)
    intro hmem
    obtain ⟨e, he, hf⟩ := List.mem_map.mp hmem
    exact (hnew e he).1 hf
  · intro e
    rw [hr.timestampAccess_eq, Finset.mem_insert, h.stamps, hperm.mem_iff, List.mem_cons]
  · intro e he
    rcases List.mem_cons.mp (hperm.mem_iff.mp he) with rfl | he
    · exact hlt
    · exact h.lt e he
  · exact hperm.mem_iff.mpr List.mem_cons_self

/-- An eviction moves a page from a list to a ghost list. -/
theorem Evicted.listedPages_perm (h : Evicted B r f p r') :
    r'.listedPages.Perm r.listedPages := by
  have hperm := (h.perm.map Prod.snd).append_right (r.mruGhost ++ r.mfuGhost)
  rw [listedPages, listedPages]
  refine List.Perm.trans ?_ hperm.symm
  rcases h.ghosts with ⟨hmru, hmfu, -⟩ | ⟨hmru, hmfu, -⟩
  · rw [hmru, hmfu, List.cons_append]
    exact List.perm_middle
  · rw [hmru, hmfu]
    apply (List.Perm.append_left _ List.perm_middle).trans
    exact List.perm_middle

theorem Keeps.evicted (h : r.Keeps c) (hr : Evicted B r f p r') : r'.Keeps c := by
  have hrecent := h.recent
  have htotal := h.total
  have hlen := hr.perm.length_eq
  simp only [List.length_append, List.length_cons] at hlen
  have hframes := (hr.perm.map Prod.fst).nodup_iff.mp h.frames
  rw [List.map_cons, List.nodup_cons] at hframes
  refine ⟨⟨?_, ?_, hr.listedPages_perm.nodup_iff.mpr h.pages, hframes.2, ?_⟩,
    hr.replacerSize_eq.trans h.size, ?_⟩
  · rcases hr.ghosts with ⟨hmru, hmfu, hlen'⟩ | ⟨hmru, hmfu, hlen'⟩
    · rw [hmru, List.length_cons]
      omega
    · rw [hmru]
      omega
  · rcases hr.ghosts with ⟨hmru, hmfu, hlen'⟩ | ⟨hmru, hmfu, hlen'⟩
    · rw [hmru, hmfu, List.length_cons]
      omega
    · rw [hmru, hmfu, List.length_cons]
      omega
  · intro e
    rw [hr.timestampAccess_eq, Finset.mem_erase, h.stamps, hr.perm.mem_iff, List.mem_cons]
    constructor
    · rintro ⟨hne, he⟩
      exact he.resolve_left hne
    · intro he
      refine ⟨?_, Or.inr he⟩
      rintro rfl
      exact hframes.1 (List.mem_map_of_mem (f := Prod.fst) he)
  · exact fun e he => h.lt e (hr.perm.mem_iff.mpr (List.mem_cons_of_mem _ he))

theorem Keeps.remove (h : r.Keeps c) (f : FrameId) : (r.remove f).Keeps c := by
  by_cases hf : f ∈ r.evictablePages
  · rwa [ArcReplacer.remove, if_pos hf]
  have hsub := remove_sublist r f
  obtain ⟨hmru, hmfu⟩ := remove_lists hf h.frames
  have hghosts : (r.remove f).mruGhost.Sublist r.mruGhost ∧
      (r.remove f).mfuGhost.Sublist r.mfuGhost := by
    rw [ArcReplacer.remove, if_neg hf]
    exact ⟨List.filter_sublist, List.filter_sublist⟩
  have hlen := hsub.length_le
  have hlenMru := hghosts.1.length_le
  have hlenMfu := hghosts.2.length_le
  have hlenFilter := List.length_filter_le (·.1 ≠ f) r.mru
  simp only [List.length_append] at hlen
  have hrecent := h.recent
  have htotal := h.total
  refine ⟨⟨?_, by omega, ?_, h.frames.sublist (hsub.map _), ?_⟩, ?_,
    fun e he => h.lt e (hsub.subset he)⟩
  · rw [hmru]
    omega
  · exact h.pages.sublist ((hsub.map _).append (hghosts.1.append hghosts.2))
  · intro e
    rw [remove_stamps hf h.frames h.stamps, hmru, hmfu, ← List.filter_append, List.mem_filter]
    simp
  · rw [ArcReplacer.remove, if_neg hf]
    exact h.size

/-- One call keeps the bounds, and an access leaves its entry listed. -/
theorem step_keeps {call : ArcCall} (h : r.Keeps c) (hgranted : r.Admits c call)
    (hstep : step B call r = some r') :
    r'.Keeps c ∧ ∀ f p, call = .recordAccess f p → (f, p) ∈ r'.mru ++ r'.mfu := by
  cases call with
  | recordAccess f p =>
      obtain ⟨hlt, hmem | hnew⟩ := hgranted
      · have hr := recordAccess_recorded (step_recordAccess.mp hstep)
        have hperm := (hr.perm_of_mem hmem h.nodup).1
        refine ⟨h.recorded_of_mem hr hmem, ?_⟩
        rintro f' p' heq
        obtain ⟨rfl, rfl⟩ := ArcCall.recordAccess.inj heq
        exact hperm.mem_iff.mpr hmem
      · have hr := recordAccess_recorded (step_recordAccess.mp hstep)
        obtain ⟨hkeeps, hmem⟩ := h.recorded_of_new hr hlt hnew
        refine ⟨hkeeps, ?_⟩
        rintro f' p' heq
        obtain ⟨rfl, rfl⟩ := ArcCall.recordAccess.inj heq
        exact hmem
  | setEvictable f =>
      obtain ⟨n, -, rfl⟩ := setEvictable_eq_ok.mp (step_setEvictable.mp hstep)
      exact ⟨⟨⟨h.recent, h.total, h.pages, h.frames, h.stamps⟩, h.size, h.lt⟩, nofun⟩
  | evict =>
      obtain ⟨o, hevict⟩ := step_evict.mp hstep
      rcases evict_cases hevict with ⟨-, rfl, -⟩ | ⟨f, p, -, hr⟩
      · exact ⟨h, nofun⟩
      · exact ⟨h.evicted hr, nofun⟩
  | remove f =>
      obtain rfl := step_remove.mp hstep
      exact ⟨h.remove f, nofun⟩

end Keeps

/-- **The lists of the replacer are bounded and disjoint** in every run of
admitted calls, whatever the target size is set to between them. -/
theorem arranged_throughout (B : Build) (c : ℕ) (calls : List (Option ℕ × ArcCall))
    (hcalls : Along (steered B) (fun _ call r => r.Admits c call.2) [] calls (new c)) :
    Throughout (steered B) (fun hist r => r.Arranged c ∧ TracksLast hist r) [] calls (new c) := by
  have hkeeps : Throughout (steered B) (fun hist r => r.Keeps c ∧ TracksLast hist r) [] calls
      (new c) := by
    refine throughout_of_along ?_ ⟨new_keeps c, trivial⟩ hcalls
    rintro hist ⟨t, call⟩ r r' ⟨h, -⟩ hgranted hstep
    -- no bound of the lists depends on the target size
    have h' : Keeps c { r with mruTargetSize := t.getD r.mruTargetSize } :=
      ⟨⟨h.recent, h.total, h.pages, h.frames, h.stamps⟩, h.size, h.lt⟩
    have hgranted' : Admits c { r with mruTargetSize := t.getD r.mruTargetSize } call := by
      cases call <;> exact hgranted
    obtain ⟨hkeeps, htracks⟩ := step_keeps h' hgranted' hstep
    refine ⟨hkeeps, ?_⟩
    cases call with
    | recordAccess f p => exact htracks f p rfl
    | setEvictable f => trivial
    | evict => trivial
    | remove f => trivial
  exact hkeeps.mono fun hist r h => ⟨h.1.toArranged, h.2⟩

/-- Two frames serve three pages: one is evicted and comes back. -/
theorem arranged_throughout_two_frames :
    Throughout (steered ⟨true⟩) (fun hist r => r.Arranged 2 ∧ TracksLast hist r) []
      [(none, .recordAccess 0 0), (none, .recordAccess 1 1), (none, .setEvictable 0),
        (none, .evict), (none, .recordAccess 0 2), (none, .setEvictable 1), (none, .evict),
        (some 7, .recordAccess 1 0), (none, .remove 0)] (new 2) :=
  arranged_throughout ⟨true⟩ 2 _ (by decide +kernel)

/-! ### Evictions complete -/

/-- Where overflow is checked, `curr_size` covers the evictable frames. -/
def CountsMarks (B : Build) (r : ArcReplacer) : Prop :=
  B.overflowChecks = true → r.evictablePages.card ≤ r.currSize

section CountsMarks

variable {B : Build} {r r' : ArcReplacer} {f : FrameId} {p : PageId}

theorem new_countsMarks (B : Build) (c : ℕ) : (new c).CountsMarks B := fun _ => le_rfl

theorem CountsMarks.congr (h : r.CountsMarks B) (hmarks : r'.evictablePages ⊆ r.evictablePages)
    (hsize : r'.currSize = r.currSize) : r'.CountsMarks B := by
  intro hB
  rw [hsize]
  exact (Finset.card_le_card hmarks).trans (h hB)

theorem CountsMarks.subU32 (h : r.CountsMarks B) (hf : f ∈ r.evictablePages) :
    ∃ n, B.subU32 r.currSize 1 = .ok n :=
  B.subU32_ok fun hB => (Finset.card_pos.mpr ⟨f, hf⟩).trans_le (h hB)

theorem evictFromMruGhost_ok (h : r.CountsMarks B) :
    ∃ o r', r.evictFromMruGhost B = .ok (o, r') := by
  rw [evictFromMruGhost]
  split
  · exact ⟨_, _, rfl⟩
  · next i f p hsome =>
      obtain ⟨pre, post, -, -, hf, -⟩ := lastEvictable_eq_some hsome
      obtain ⟨n, hn⟩ := h.subU32 hf
      rw [hn]
      exact ⟨_, _, rfl⟩

theorem evictFromMfuGhost_ok (h : r.CountsMarks B) :
    ∃ o r', r.evictFromMfuGhost B = .ok (o, r') := by
  rw [evictFromMfuGhost]
  split
  · exact ⟨_, _, rfl⟩
  · next i f p hsome =>
      obtain ⟨pre, post, -, -, hf, -⟩ := lastEvictable_eq_some hsome
      obtain ⟨n, hn⟩ := h.subU32 hf
      rw [hn]
      exact ⟨_, _, rfl⟩

theorem evict_completes (h : r.CountsMarks B) : ∃ o r', r.evict B = .ok (o, r') := by
  rw [evict]
  split
  · obtain ⟨o, r₁, h₁⟩ := evictFromMruGhost_ok h
    rw [h₁, ok_bind]
    rcases evictFromMruGhost_cases h₁ with ⟨rfl, rfl, -⟩ | ⟨f, p, pre, post, n, rfl, -⟩
    · exact evictFromMfuGhost_ok h
    · exact ⟨_, _, rfl⟩
  · obtain ⟨o, r₁, h₁⟩ := evictFromMfuGhost_ok h
    rw [h₁, ok_bind]
    rcases evictFromMfuGhost_cases h₁ with ⟨rfl, rfl, -⟩ | ⟨f, p, pre, post, n, rfl, -⟩
    · exact evictFromMruGhost_ok h
    · exact ⟨_, _, rfl⟩

/-- A replacer that tracks an evictable frame evicts one. -/
theorem evict_ok (h : r.CountsMarks B) {e : FrameId × PageId} (he : e ∈ r.mru ++ r.mfu)
    (hmark : e.1 ∈ r.evictablePages) : ∃ f r', r.evict B = .ok (some f, r') := by
  obtain ⟨o, r', hevict⟩ := evict_completes h
  rcases evict_cases hevict with ⟨-, -, hnone⟩ | ⟨f, p, rfl, -⟩
  · exact absurd hmark (hnone e he)
  · exact ⟨f, r', hevict⟩

theorem Evicted.currSize_eq (hr : Evicted B r f p r') (hpos : 0 < r.currSize) :
    r'.currSize = r.currSize - 1 := by
  have hsub := B.subU32_eq (Nat.one_le_iff_ne_zero.mpr hpos.ne')
  cases hr with
  | fromMru pre post n _ _ _ size => exact Except.ok.inj (size.symm.trans hsub)
  | fromMfu pre post n _ _ _ size => exact Except.ok.inj (size.symm.trans hsub)

theorem Evicted.countsMarks (hr : Evicted B r f p r') (h : r.CountsMarks B) :
    r'.CountsMarks B := by
  intro hB
  have hf := hr.evictable.1
  have hpos := (Finset.card_pos.mpr ⟨f, hf⟩).trans_le (h hB)
  rw [hr.evictable.2, hr.currSize_eq hpos, Finset.card_erase_of_mem hf]
  exact Nat.sub_le_sub_right (h hB) 1

theorem remove_currSize (r : ArcReplacer) (f : FrameId) : (r.remove f).currSize = r.currSize := by
  rw [remove]
  split
  · rfl
  · rfl

theorem step_countsMarks {call : ArcCall} (h : r.CountsMarks B)
    (hstep : step B call r = some r') : r'.CountsMarks B := by
  cases call with
  | recordAccess f p =>
      have hr := recordAccess_recorded (step_recordAccess.mp hstep)
      exact h.congr hr.evictablePages_eq.subset hr.currSize_eq
  | setEvictable f =>
      obtain ⟨n, hn, rfl⟩ := setEvictable_eq_ok.mp (step_setEvictable.mp hstep)
      intro hB
      rw [Build.addU32] at hn
      split at hn
      · obtain rfl := Except.ok.inj hn
        exact (Finset.card_insert_le f r.evictablePages).trans (Nat.succ_le_succ (h hB))
      · simp at hn
  | evict =>
      obtain ⟨o, hevict⟩ := step_evict.mp hstep
      rcases evict_cases hevict with ⟨-, rfl, -⟩ | ⟨f, p, -, hr⟩
      · exact h
      · exact hr.countsMarks h
  | remove f =>
      obtain rfl := step_remove.mp hstep
      exact h.congr (remove_evictablePages_subset r f) (remove_currSize r f)

end CountsMarks

/-- Some sequence of calls leads from one replacer to the other. -/
def Issues (B : Build) (r r' : ArcReplacer) : Prop := ∃ calls, run (step B) calls r = some r'

end ArcReplacer

/-! ### The calls a pool makes -/

namespace BufferPoolManager

/-- The calls of the replacer a `loadPage` makes. -/
def loadPageCalls (bpm : BufferPoolManager) (pageId : PageId) : List ArcCall :=
  match bpm.freeFrames with
  | [] => []
  | frameId :: _ => [.recordAccess frameId pageId]

/-- Those of a `checkPage`: an access, after an eviction where one is needed. -/
def checkPageCalls (B : Build) (order : HashOrder) (bpm : BufferPoolManager) (pageId : PageId) :
    List ArcCall :=
  match bpm.pageTable.lookup pageId with
  | some frameId => [.recordAccess frameId pageId]
  | none =>
      if 0 < bpm.freeFrames.length then bpm.loadPageCalls pageId
      else .evict :: match bpm.evictFrame B order with
        | .ok bpm => bpm.loadPageCalls pageId
        | .error _ => []

/-- Those of a `dropGuard`: the last guard of a frame marks it. -/
def dropGuardCalls (bpm : BufferPoolManager) (guard : Guard) : List ArcCall :=
  if (bpm.frames guard.frameId).pinCount = 1 then [.setEvictable guard.frameId] else []

/-- Those of a `flushFrame`, whose guard is the last one of an unpinned frame. -/
def flushFrameCalls (bpm : BufferPoolManager) (pageId : PageId) (frameId : FrameId) :
    List ArcCall :=
  .recordAccess frameId pageId ::
    if (bpm.frames frameId).pinCount = 0 then [.setEvictable frameId] else []

def flushEntriesCalls (B : Build) (bpm : BufferPoolManager) :
    List (PageId × FrameId) → List ArcCall
  | [] => []
  | (pageId, frameId) :: rest =>
      bpm.flushFrameCalls pageId frameId ++ match bpm.flushFrame B pageId frameId with
        | .ok (_, bpm) => bpm.flushEntriesCalls B rest
        | .error _ => []

def deletePageCalls (bpm : BufferPoolManager) (pageId : PageId) : List ArcCall :=
  match bpm.pageTable.lookup pageId with
  | none => []
  | some frameId => if (bpm.frames frameId).pinCount ≠ 0 then [] else [.remove frameId]

section ReplacerCalls

variable {B : Build} {order : HashOrder} {bpm bpm' : BufferPoolManager}

theorem loadPage_calls {kind : GuardKind} {p : PageId} {g : Guard}
    (h : bpm.loadPage B kind p = .ok (g, bpm')) :
    run (ArcReplacer.step B) (bpm.loadPageCalls p) bpm.arcReplacer = some bpm'.arcReplacer := by
  obtain ⟨f, rest, data, dm, r, hfree, -, -, hr, -, rfl⟩ := loadPage_cases h
  rw [loadPageCalls, hfree, run_cons, ArcReplacer.step_recordAccess.mpr hr]
  rfl

theorem checkPage_calls {kind : GuardKind} {p : PageId} {g : Guard}
    (h : bpm.checkPage B order kind p = .ok (g, bpm')) :
    run (ArcReplacer.step B) (bpm.checkPageCalls B order p) bpm.arcReplacer =
      some bpm'.arcReplacer := by
  rcases checkPage_cases h with
    ⟨f, r, hp, -, hr, -, rfl⟩ | ⟨hp, hfree, hload⟩ | ⟨hp, hfree, bpm₁, hevict, hload⟩
  · simp only [checkPageCalls, hp, run_cons, ArcReplacer.step_recordAccess.mpr hr]
    rfl
  · have hpos := List.length_pos_iff.mpr hfree
    simp only [checkPageCalls, hp, hpos, if_true]
    exact loadPage_calls hload
  · obtain ⟨f, p', r, q, reply, dm, hr, -, -, -, -, rfl⟩ := evictFrame_cases hevict
    have hstep : ArcReplacer.step B .evict bpm.arcReplacer = some r :=
      ArcReplacer.step_evict.mpr ⟨_, hr⟩
    simp only [checkPageCalls, hp, hfree, List.length_nil, Nat.lt_irrefl, if_false, hevict,
      run_cons, hstep, Option.bind_some]
    exact loadPage_calls hload

theorem dropGuard_calls {g : Guard} (h : bpm.dropGuard B g = .ok bpm') :
    run (ArcReplacer.step B) (bpm.dropGuardCalls g) bpm.arcReplacer = some bpm'.arcReplacer := by
  rcases dropGuard_cases h with ⟨hne, rfl⟩ | ⟨heq, r, hr, rfl⟩
  · rw [dropGuardCalls, if_neg hne]
    rfl
  · rw [dropGuardCalls, if_pos heq, run_cons, ArcReplacer.step_setEvictable.mpr hr]
    rfl

theorem flushFrame_calls {p : PageId} {f : FrameId} {flushed : Bool}
    (h : bpm.flushFrame B p f = .ok (flushed, bpm')) :
    run (ArcReplacer.step B) (bpm.flushFrameCalls p f) bpm.arcReplacer =
      some bpm'.arcReplacer := by
  obtain ⟨-, r, r', dm, hr, hr', -, rfl⟩ := flushFrame_cases h
  rw [flushFrameCalls, run_cons, ArcReplacer.step_recordAccess.mpr hr, Option.bind_some]
  rcases hr' with ⟨hpin, rfl⟩ | ⟨hpin, hr'⟩
  · rw [if_neg hpin]
    rfl
  · rw [if_pos hpin, run_cons, ArcReplacer.step_setEvictable.mpr hr']
    rfl

theorem flushEntries_calls {entries : List (PageId × FrameId)} : ∀ {bpm bpm' : BufferPoolManager},
    bpm.flushEntries B entries = .ok bpm' →
      run (ArcReplacer.step B) (bpm.flushEntriesCalls B entries) bpm.arcReplacer =
        some bpm'.arcReplacer := by
  induction entries with
  | nil =>
      intro bpm bpm' h
      obtain rfl := Except.ok.inj h
      rfl
  | cons e rest ih =>
      intro bpm bpm' h
      obtain ⟨p, f⟩ := e
      simp only [flushEntries] at h
      obtain ⟨⟨flushed, bpm₁⟩, hflush, h⟩ := bind_eq_ok.mp h
      simp only [flushEntriesCalls, hflush, run_append, flushFrame_calls hflush, Option.bind_some]
      exact ih h

theorem deletePage_calls {p : PageId} (h : bpm.deletePage p = .ok bpm') :
    run (ArcReplacer.step B) (bpm.deletePageCalls p) bpm.arcReplacer = some bpm'.arcReplacer := by
  rcases deletePage_cases h with ⟨hp, rfl⟩ | ⟨f, hp, -, ⟨hpin, rfl⟩ | ⟨hpin, reply, dm, -, rfl⟩⟩
  · simp only [deletePageCalls, hp]
    rfl
  · simp only [deletePageCalls, hp, if_pos hpin]
    rfl
  · simp only [deletePageCalls, hp, hpin, ne_eq, not_true, if_false]
    rfl

end ReplacerCalls

end BufferPoolManager

namespace Session

/-- The calls of the replacer a call of the pool makes. -/
def replacerCalls (B : Build) (order : HashOrder) : PoolCall → Session → List ArcCall
  | .newPage, _ => []
  | .checkPage _ pageId, s => s.pool.checkPageCalls B order pageId
  | .write _ _, _ => []
  | .flushGuard _, _ => []
  | .dropGuard guard, s => if guard ∈ s.guards then s.pool.dropGuardCalls guard else []
  | .flushPage pageId, s =>
      match s.pool.pageTable.lookup pageId with
      | some frameId => s.pool.flushFrameCalls pageId frameId
      | none => []
  | .flushAllPages, s => s.pool.flushEntriesCalls B (order.entries s.pool.pageTable)
  | .deletePage pageId, s => s.pool.deletePageCalls pageId

/-- The calls of the replacer a run of the pool makes, those of a call that
does not complete included. -/
def replacerRun (B : Build) (order : HashOrder) : List PoolCall → Session → List ArcCall
  | [], _ => []
  | call :: calls, s => s.replacerCalls B order call ++ match step B order call s with
      | some s' => s'.replacerRun B order calls
      | none => []

section ReplacerCalls

variable {B : Build} {order : HashOrder} {s s' : Session}

/-- A pool changes its replacer by these calls only. -/
theorem step_replacerCalls {call : PoolCall} (h : step B order call s = some s') :
    run (ArcReplacer.step B) (s.replacerCalls B order call) s.pool.arcReplacer =
      some s'.pool.arcReplacer := by
  cases call with
  | newPage =>
      obtain ⟨p, pool, hnew, rfl⟩ := step_newPage.mp h
      obtain ⟨rfl, reply, dm, -, rfl⟩ := BufferPoolManager.newPage_eq_ok.mp hnew
      rfl
  | checkPage kind p =>
      obtain ⟨g, pool, hcheck, rfl⟩ := step_checkPage.mp h
      exact BufferPoolManager.checkPage_calls hcheck
  | write g data =>
      obtain ⟨-, -, rfl⟩ := step_write.mp h
      rfl
  | flushGuard g =>
      obtain ⟨-, flushed, pool, hflush, rfl⟩ := step_flushGuard.mp h
      rcases BufferPoolManager.flushGuard_cases hflush with ⟨-, -, rfl⟩ | ⟨-, -, reply, dm, -, rfl⟩
      · rfl
      · rfl
  | dropGuard g =>
      obtain ⟨hg, pool, hdrop, rfl⟩ := step_dropGuard.mp h
      rw [replacerCalls, if_pos hg]
      exact BufferPoolManager.dropGuard_calls hdrop
  | flushPage p =>
      obtain ⟨flushed, pool, hflush, rfl⟩ := step_flushPage.mp h
      rcases BufferPoolManager.flushPage_cases hflush with ⟨hp, -, rfl⟩ | ⟨f, hp, hflush⟩
      · simp only [replacerCalls, hp]
        rfl
      · simp only [replacerCalls, hp]
        exact BufferPoolManager.flushFrame_calls hflush
  | flushAllPages =>
      obtain ⟨flushed, pool, hflush, rfl⟩ := step_flushAllPages.mp h
      rw [replacerCalls]
      simp only [BufferPoolManager.flushAllPages] at hflush
      split at hflush
      · next hlen =>
          -- an empty page table has no entries, in whatever order
          obtain ⟨-, rfl⟩ := Prod.mk.inj (Except.ok.inj hflush)
          have hperm := (order.perm s.pool.pageTable).length_eq
          rw [List.length_map] at hperm
          rw [List.length_eq_zero_iff.mp (hperm.trans hlen)]
          rfl
      · obtain ⟨pool', hloop, hflush⟩ := bind_eq_ok.mp hflush
        obtain ⟨-, rfl⟩ := Prod.mk.inj (Except.ok.inj hflush)
        exact BufferPoolManager.flushEntries_calls hloop
  | deletePage p =>
      obtain ⟨pool, hdelete, rfl⟩ := step_deletePage.mp h
      exact BufferPoolManager.deletePage_calls hdelete

/-- The replacer of a pool is the one a run of these calls leaves behind. -/
theorem run_replacerRun {calls : List PoolCall} : ∀ {s : Session},
    run (step B order) calls s = some s' →
      run (ArcReplacer.step B) (s.replacerRun B order calls) s.pool.arcReplacer =
        some s'.pool.arcReplacer := by
  induction calls with
  | nil =>
      intro s h
      obtain rfl : s = s' := by simpa using h
      rfl
  | cons call calls ih =>
      intro s h
      rw [run_cons, Option.bind_eq_some_iff] at h
      obtain ⟨s₁, hs₁, hrest⟩ := h
      simp only [replacerRun, hs₁, run_append, step_replacerCalls hs₁, Option.bind_some]
      exact ih hrest

/-- A replacer of a pool is one that a run of its own calls reaches. -/
theorem run_issues {calls : List PoolCall} {n : ℕ} {dm : DiskManager}
    (h : run (step B order) calls (.new n dm) = some s) :
    ArcReplacer.Issues B (.new n) s.pool.arcReplacer :=
  ⟨_, run_replacerRun h⟩

end ReplacerCalls

end Session

end StorageEngine
