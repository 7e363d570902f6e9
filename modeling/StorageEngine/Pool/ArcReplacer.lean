import StorageEngine.Common

/-!
The ARC replacer (`arc_replacer.rs`).

A `VecDeque` is a list with its front first. Of `timestamp_access` only the
keys are kept, since no time is ever read; `dirty_pages` is left out, since
nothing is ever inserted into it.
-/

namespace StorageEngine

structure ArcReplacer where
  mru : List (FrameId × PageId)
  mfu : List (FrameId × PageId)
  timestampAccess : Finset (FrameId × PageId)
  mruGhost : List PageId
  mfuGhost : List PageId
  mruTargetSize : ℕ
  replacerSize : ℕ
  currSize : ℕ
  evictablePages : Finset FrameId

namespace ArcReplacer

def new (replacerSize : ℕ) : ArcReplacer where
  mru := []
  mfu := []
  timestampAccess := ∅
  mruGhost := []
  mfuGhost := []
  mruTargetSize := 0
  replacerSize
  currSize := 0
  evictablePages := ∅

def setEvictable (B : Build) (r : ArcReplacer) (frameId : FrameId) :
    Except Panic ArcReplacer := do
  let currSize ← B.addU32 r.currSize 1
  return { r with evictablePages := insert frameId r.evictablePages, currSize }

/-- The target size after a hit in `mru_ghost`. -/
def increaseTarget (B : Build) (r : ArcReplacer) : Except Panic ℕ := do
  let byOne ←
    if r.mfuGhost.length ≤ r.mruGhost.length then do
      let target ← B.addU32 r.mruTargetSize 1
      let size ← toU32 r.replacerSize
      pure (decide (target < size))
    else pure false
  if byOne then B.addU32 r.mruTargetSize 1
  else
    let increase ← divAsU32 r.mfuGhost.length r.mruGhost.length
    let target ← B.addU32 r.mruTargetSize increase
    let size ← toU32 r.replacerSize
    if target ≤ size then B.addU32 r.mruTargetSize increase else pure r.mruTargetSize

/-- The target size after a hit in `mfu_ghost`. -/
def decreaseTarget (B : Build) (r : ArcReplacer) : Except Panic ℕ := do
  let byOne ←
    if r.mruGhost.length ≤ r.mfuGhost.length then do
      let target ← B.subU32 r.mruTargetSize 1
      pure (decide (0 < target))
    else pure false
  if byOne then B.subU32 r.mruTargetSize 1
  else
    let decrease ← divAsU32 r.mruGhost.length r.mfuGhost.length
    if decrease ≤ r.mruTargetSize then B.subU32 r.mruTargetSize decrease
    else pure r.mruTargetSize

def recordAccess (B : Build) (r : ArcReplacer) (frameId : FrameId) (pageId : PageId) :
    Except Panic ArcReplacer :=
  let target := (frameId, pageId)
  let r := { r with timestampAccess := insert target r.timestampAccess }
  if target ∈ r.mru ∨ target ∈ r.mfu then
    .ok { r with
      mru := r.mru.filter (· ≠ target)
      mfu := target :: r.mfu.filter (· ≠ target) }
  else if pageId ∈ r.mruGhost then do
    let mruTargetSize ← r.increaseTarget B
    return { r with
      mruTargetSize
      mruGhost := r.mruGhost.filter (· ≠ pageId)
      mfu := target :: r.mfu }
  else if pageId ∈ r.mfuGhost then do
    let mruTargetSize ← r.decreaseTarget B
    return { r with
      mruTargetSize
      mfuGhost := r.mfuGhost.filter (· ≠ pageId)
      mfu := target :: r.mfu }
  else if r.mru.length + r.mruGhost.length = r.replacerSize then
    .ok { r with mruGhost := r.mruGhost.dropLast, mru := target :: r.mru }
  else if r.mru.length + r.mruGhost.length < r.replacerSize then
    if r.mru.length + r.mfu.length + r.mfuGhost.length + r.mruGhost.length =
        2 * r.replacerSize then
      .ok { r with mfuGhost := r.mfuGhost.dropLast, mru := target :: r.mru }
    else .ok { r with mru := target :: r.mru }
  else .ok r

/-- The entry both eviction loops stop at: the last one, with its index,
whose frame is evictable. -/
def lastEvictable (evictablePages : Finset FrameId) (list : List (FrameId × PageId)) :
    Option (ℕ × FrameId × PageId) :=
  (List.range list.length).reverse.findSome? fun i =>
    (list[i]?).bind fun e => if e.1 ∈ evictablePages then some (i, e) else none

/-- `evict_from_mfu_ghost` -/
def evictFromMfuGhost (B : Build) (r : ArcReplacer) :
    Except Panic (Option FrameId × ArcReplacer) :=
  match lastEvictable r.evictablePages r.mfu with
  | none => .ok (none, r)
  | some (i, frameId, pageId) => do
      let currSize ← B.subU32 r.currSize 1
      return (some frameId, { r with
        mfu := r.mfu.eraseIdx i
        mfuGhost := pageId :: r.mfuGhost
        evictablePages := r.evictablePages.erase frameId
        timestampAccess := r.timestampAccess.erase (frameId, pageId)
        currSize })

/-- `evict_from_mru_ghost` -/
def evictFromMruGhost (B : Build) (r : ArcReplacer) :
    Except Panic (Option FrameId × ArcReplacer) :=
  match lastEvictable r.evictablePages r.mru with
  | none => .ok (none, r)
  | some (i, frameId, pageId) => do
      let currSize ← B.subU32 r.currSize 1
      return (some frameId, { r with
        mru := r.mru.eraseIdx i
        mruGhost := pageId :: r.mruGhost
        evictablePages := r.evictablePages.erase frameId
        timestampAccess := r.timestampAccess.erase (frameId, pageId)
        currSize })

def evict (B : Build) (r : ArcReplacer) : Except Panic (Option FrameId × ArcReplacer) :=
  if r.mruTargetSize ≤ r.mru.length then do
    match ← r.evictFromMruGhost B with
    | (some evicted, r) => return (some evicted, r)
    | (none, r) => r.evictFromMfuGhost B
  else do
    match ← r.evictFromMfuGhost B with
    | (some evicted, r) => return (some evicted, r)
    | (none, r) => r.evictFromMruGhost B

/-- The page `retain` finds last in a list for the frame it drops. -/
def pageOf (list : List (FrameId × PageId)) (frameId : FrameId) : Option PageId :=
  ((list.filter (·.1 = frameId)).getLast?).map Prod.snd

def remove (r : ArcReplacer) (frameId : FrameId) : ArcReplacer :=
  if frameId ∈ r.evictablePages then r
  else
    let inMru := pageOf r.mru frameId
    let pageIdOption := if inMru.isNone then pageOf r.mfu frameId else inMru
    { r with
      mru := r.mru.filter (·.1 ≠ frameId)
      mfu := if inMru.isNone then r.mfu.filter (·.1 ≠ frameId) else r.mfu
      timestampAccess := match pageIdOption with
        | some pageId => r.timestampAccess.erase (frameId, pageId)
        | none => r.timestampAccess
      evictablePages := match pageIdOption with
        | some _ => r.evictablePages.erase frameId
        | none => r.evictablePages
      mruGhost := r.mruGhost.filter (· ≠ pageIdOption.getD 0)
      mfuGhost := r.mfuGhost.filter (· ≠ pageIdOption.getD 0) }

/-! ### What the calls can do -/

@[simp] theorem setEvictable_eq_ok {B : Build} {r r' : ArcReplacer} {f : FrameId} :
    r.setEvictable B f = .ok r' ↔ ∃ n, B.addU32 r.currSize 1 = .ok n ∧
      r' = { r with evictablePages := insert f r.evictablePages, currSize := n } := by
  rw [setEvictable, bind_eq_ok]
  simp only [pure, Except.pure, Except.ok.injEq, eq_comm]

theorem findSome?_congr {α β : Type} {f g : α → Option β} {l : List α}
    (h : ∀ a ∈ l, f a = g a) : l.findSome? f = l.findSome? g := by
  induction l with
  | nil => rfl
  | cons a l ih =>
      rw [List.findSome?_cons, List.findSome?_cons, h a (by simp),
        ih fun b hb => h b (by simp [hb])]

theorem lastEvictable_append (S : Finset FrameId) (l : List (FrameId × PageId))
    (e : FrameId × PageId) :
    lastEvictable S (l ++ [e]) =
      if e.1 ∈ S then some (l.length, e) else lastEvictable S l := by
  have hlen : (l ++ [e]).length = l.length + 1 := by simp
  rw [lastEvictable, hlen, List.range_succ, List.reverse_append, List.reverse_singleton,
    List.singleton_append, List.findSome?_cons, List.getElem?_concat_length]
  by_cases he : e.1 ∈ S
  · simp [he]
  simp only [Option.bind_some, he, if_false, lastEvictable]
  apply findSome?_congr
  intro i hi
  have hlt : i < l.length := by simpa using hi
  rw [List.getElem?_append_left hlt]

/-- The eviction loop finds an entry with an evictable frame, behind which
there is none, and removing its index removes that entry. -/
theorem lastEvictable_eq_some {S : Finset FrameId} {l : List (FrameId × PageId)} {i : ℕ}
    {e : FrameId × PageId} (h : lastEvictable S l = some (i, e)) :
    ∃ pre post, l = pre ++ e :: post ∧ l.eraseIdx i = pre ++ post ∧ e.1 ∈ S ∧
      ∀ x ∈ post, x.1 ∉ S := by
  suffices H : ∃ pre post, l = pre ++ e :: post ∧ i = pre.length ∧ e.1 ∈ S ∧
      ∀ x ∈ post, x.1 ∉ S by
    obtain ⟨pre, post, rfl, rfl, he, hpost⟩ := H
    exact ⟨pre, post, rfl, by simp [List.eraseIdx_append_of_length_le], he, hpost⟩
  induction l using List.reverseRecOn with
  | nil => simp [lastEvictable] at h
  | append_singleton l x ih =>
      rw [lastEvictable_append] at h
      split at h
      · next hx =>
          obtain ⟨rfl, rfl⟩ : l.length = i ∧ x = e := by simpa using h
          exact ⟨l, [], rfl, rfl, hx, by simp⟩
      · next hx =>
          obtain ⟨pre, post, rfl, hi, he, hpost⟩ := ih h
          refine ⟨pre, post ++ [x], by simp, hi, he, ?_⟩
          intro y hy
          rcases List.mem_append.mp hy with hy | hy
          · exact hpost y hy
          · rw [List.mem_singleton.mp hy]
            exact hx

theorem lastEvictable_eq_none {S : Finset FrameId} {l : List (FrameId × PageId)} :
    lastEvictable S l = none ↔ ∀ e ∈ l, e.1 ∉ S := by
  induction l using List.reverseRecOn with
  | nil => simp [lastEvictable]
  | append_singleton l x ih =>
      rw [lastEvictable_append]
      split
      · next hx =>
          refine ⟨fun h => by simp at h, fun h => absurd hx (h x (by simp))⟩
      · next hx =>
          rw [ih]
          constructor
          · intro h e he
            rcases List.mem_append.mp he with he | he
            · exact h e he
            · rw [List.mem_singleton.mp he]
              exact hx
          · exact fun h e he => h e (by simp [he])

/-- What `record_access` can do: promote a tracked entry, let it enter `mfu`
on a ghost hit, let it enter `mru`, or not track it at all. The evictable
frames stay as they are. -/
inductive Recorded (B : Build) (r : ArcReplacer) (f : FrameId) (p : PageId) :
    ArcReplacer → Prop
  | promote (hit : (f, p) ∈ r.mru ++ r.mfu) : Recorded B r f p { r with
      timestampAccess := insert (f, p) r.timestampAccess
      mru := r.mru.filter (· ≠ (f, p))
      mfu := (f, p) :: r.mfu.filter (· ≠ (f, p)) }
  | mruGhostHit (miss : (f, p) ∉ r.mru ++ r.mfu) (hit : p ∈ r.mruGhost) (t : ℕ)
      (target : r.increaseTarget B = .ok t) : Recorded B r f p { r with
        timestampAccess := insert (f, p) r.timestampAccess
        mruTargetSize := t
        mruGhost := r.mruGhost.filter (· ≠ p)
        mfu := (f, p) :: r.mfu }
  | mfuGhostHit (miss : (f, p) ∉ r.mru ++ r.mfu) (miss₁ : p ∉ r.mruGhost)
      (hit : p ∈ r.mfuGhost) (t : ℕ) (target : r.decreaseTarget B = .ok t) :
      Recorded B r f p { r with
        timestampAccess := insert (f, p) r.timestampAccess
        mruTargetSize := t
        mfuGhost := r.mfuGhost.filter (· ≠ p)
        mfu := (f, p) :: r.mfu }
  | dropMruGhost (miss : (f, p) ∉ r.mru ++ r.mfu) (miss₁ : p ∉ r.mruGhost)
      (miss₂ : p ∉ r.mfuGhost) (full : r.mru.length + r.mruGhost.length = r.replacerSize) :
      Recorded B r f p { r with
        timestampAccess := insert (f, p) r.timestampAccess
        mruGhost := r.mruGhost.dropLast
        mru := (f, p) :: r.mru }
  | dropMfuGhost (miss : (f, p) ∉ r.mru ++ r.mfu) (miss₁ : p ∉ r.mruGhost)
      (miss₂ : p ∉ r.mfuGhost) (room : r.mru.length + r.mruGhost.length < r.replacerSize)
      (full : r.mru.length + r.mfu.length + r.mfuGhost.length + r.mruGhost.length =
        2 * r.replacerSize) :
      Recorded B r f p { r with
        timestampAccess := insert (f, p) r.timestampAccess
        mfuGhost := r.mfuGhost.dropLast
        mru := (f, p) :: r.mru }
  | enter (miss : (f, p) ∉ r.mru ++ r.mfu) (miss₁ : p ∉ r.mruGhost)
      (miss₂ : p ∉ r.mfuGhost) (room : r.mru.length + r.mruGhost.length < r.replacerSize)
      (room₂ : r.mru.length + r.mfu.length + r.mfuGhost.length + r.mruGhost.length ≠
        2 * r.replacerSize) :
      Recorded B r f p { r with
        timestampAccess := insert (f, p) r.timestampAccess
        mru := (f, p) :: r.mru }
  | untracked (miss : (f, p) ∉ r.mru ++ r.mfu) (miss₁ : p ∉ r.mruGhost)
      (miss₂ : p ∉ r.mfuGhost) (tooMany : r.replacerSize < r.mru.length + r.mruGhost.length) :
      Recorded B r f p { r with timestampAccess := insert (f, p) r.timestampAccess }

theorem recordAccess_recorded {B : Build} {r r' : ArcReplacer} {f : FrameId} {p : PageId}
    (h : r.recordAccess B f p = .ok r') : Recorded B r f p r' := by
  simp only [recordAccess, ← List.mem_append] at h
  split at h
  · next hit =>
      obtain rfl := Except.ok.inj h
      exact .promote hit
  next miss =>
  split at h
  · next hit =>
      obtain ⟨t, ht, h⟩ := bind_eq_ok.mp h
      obtain rfl := Except.ok.inj h
      exact .mruGhostHit miss hit t ht
  next miss₁ =>
  split at h
  · next hit =>
      obtain ⟨t, ht, h⟩ := bind_eq_ok.mp h
      obtain rfl := Except.ok.inj h
      exact .mfuGhostHit miss miss₁ hit t ht
  next miss₂ =>
  split at h
  · next full =>
      obtain rfl := Except.ok.inj h
      exact .dropMruGhost miss miss₁ miss₂ full
  next hne =>
  split at h
  · next room =>
      split at h
      · next full =>
          obtain rfl := Except.ok.inj h
          exact .dropMfuGhost miss miss₁ miss₂ room full
      · next room₂ =>
          obtain rfl := Except.ok.inj h
          exact .enter miss miss₁ miss₂ room room₂
  · next hnlt =>
      obtain rfl := Except.ok.inj h
      exact .untracked miss miss₁ miss₂ (by omega)

/-- An eviction: the entry leaves its list, its page enters the front of the
matching ghost list, and its frame is no longer evictable. Behind the entry
the list has no evictable frame. -/
inductive Evicted (B : Build) (r : ArcReplacer) (f : FrameId) (p : PageId) :
    ArcReplacer → Prop
  | fromMru (pre post : List (FrameId × PageId)) (n : ℕ) (hf : f ∈ r.evictablePages)
      (list : r.mru = pre ++ (f, p) :: post) (last : ∀ e ∈ post, e.1 ∉ r.evictablePages)
      (size : B.subU32 r.currSize 1 = .ok n) : Evicted B r f p { r with
        mru := pre ++ post
        mruGhost := p :: r.mruGhost
        evictablePages := r.evictablePages.erase f
        timestampAccess := r.timestampAccess.erase (f, p)
        currSize := n }
  | fromMfu (pre post : List (FrameId × PageId)) (n : ℕ) (hf : f ∈ r.evictablePages)
      (list : r.mfu = pre ++ (f, p) :: post) (last : ∀ e ∈ post, e.1 ∉ r.evictablePages)
      (size : B.subU32 r.currSize 1 = .ok n) : Evicted B r f p { r with
        mfu := pre ++ post
        mfuGhost := p :: r.mfuGhost
        evictablePages := r.evictablePages.erase f
        timestampAccess := r.timestampAccess.erase (f, p)
        currSize := n }

section Lists

variable {B : Build} {r r' : ArcReplacer} {f : FrameId} {p : PageId}

theorem Recorded.evictablePages_eq (h : Recorded B r f p r') :
    r'.evictablePages = r.evictablePages := by
  cases h <;> rfl

theorem Recorded.replacerSize_eq (h : Recorded B r f p r') :
    r'.replacerSize = r.replacerSize := by
  cases h <;> rfl

theorem Recorded.currSize_eq (h : Recorded B r f p r') : r'.currSize = r.currSize := by
  cases h <;> rfl

theorem Recorded.timestampAccess_eq (h : Recorded B r f p r') :
    r'.timestampAccess = insert (f, p) r.timestampAccess := by
  cases h <;> rfl

/-- An access adds no entry but its own. -/
theorem Recorded.mem (h : Recorded B r f p r') {e : FrameId × PageId}
    (he : e ∈ r'.mru ++ r'.mfu) : e = (f, p) ∨ e ∈ r.mru ++ r.mfu := by
  cases h <;> simp only [List.mem_append, List.mem_cons, List.mem_filter] at he ⊢ <;> tauto

theorem Evicted.mem (h : Evicted B r f p r') : (f, p) ∈ r.mru ++ r.mfu := by
  cases h with
  | fromMru pre post n hf list => simp [list]
  | fromMfu pre post n hf list => simp [list]

theorem Evicted.perm (h : Evicted B r f p r') :
    (r.mru ++ r.mfu).Perm ((f, p) :: (r'.mru ++ r'.mfu)) := by
  cases h with
  | fromMru pre post n hf list =>
      rw [list]
      simp only [List.append_assoc, List.cons_append]
      exact List.perm_middle
  | fromMfu pre post n hf list =>
      rw [list]
      simp only [← List.append_assoc]
      exact List.perm_middle

theorem Evicted.evictable (h : Evicted B r f p r') :
    f ∈ r.evictablePages ∧ r'.evictablePages = r.evictablePages.erase f := by
  cases h with
  | fromMru pre post n hf => exact ⟨hf, rfl⟩
  | fromMfu pre post n hf => exact ⟨hf, rfl⟩

theorem Evicted.timestampAccess_eq (h : Evicted B r f p r') :
    r'.timestampAccess = r.timestampAccess.erase (f, p) := by
  cases h <;> rfl

theorem Evicted.replacerSize_eq (h : Evicted B r f p r') :
    r'.replacerSize = r.replacerSize := by
  cases h <;> rfl

theorem Evicted.mruTargetSize_eq (h : Evicted B r f p r') :
    r'.mruTargetSize = r.mruTargetSize := by
  cases h <;> rfl

theorem remove_sublist (r : ArcReplacer) (f : FrameId) :
    ((r.remove f).mru ++ (r.remove f).mfu).Sublist (r.mru ++ r.mfu) := by
  rw [remove]
  split
  · exact List.Sublist.refl _
  · apply List.Sublist.append List.filter_sublist
    simp only
    split
    · exact List.filter_sublist
    · exact List.Sublist.refl _

theorem remove_evictablePages_subset (r : ArcReplacer) (f : FrameId) :
    (r.remove f).evictablePages ⊆ r.evictablePages := by
  rw [remove]
  split
  · exact Finset.Subset.refl _
  · simp only
    split
    · exact Finset.erase_subset _ _
    · exact Finset.Subset.refl _

end Lists

theorem evictFromMruGhost_cases {B : Build} {r r' : ArcReplacer} {o : Option FrameId}
    (h : r.evictFromMruGhost B = .ok (o, r')) :
    (o = none ∧ r' = r ∧ ∀ e ∈ r.mru, e.1 ∉ r.evictablePages) ∨
      ∃ f p pre post n, o = some f ∧ f ∈ r.evictablePages ∧ r.mru = pre ++ (f, p) :: post ∧
        (∀ e ∈ post, e.1 ∉ r.evictablePages) ∧ B.subU32 r.currSize 1 = .ok n ∧ r' = { r with
          mru := pre ++ post
          mruGhost := p :: r.mruGhost
          evictablePages := r.evictablePages.erase f
          timestampAccess := r.timestampAccess.erase (f, p)
          currSize := n } := by
  rw [evictFromMruGhost] at h
  split at h
  · next hnone =>
      obtain ⟨rfl, rfl⟩ := Prod.mk.inj (Except.ok.inj h)
      exact Or.inl ⟨rfl, rfl, lastEvictable_eq_none.mp hnone⟩
  · next i f p hsome =>
      obtain ⟨n, hn, h⟩ := bind_eq_ok.mp h
      obtain ⟨rfl, rfl⟩ := Prod.mk.inj (Except.ok.inj h)
      obtain ⟨pre, post, hlist, herase, hf, hlast⟩ := lastEvictable_eq_some hsome
      rw [herase]
      exact Or.inr ⟨f, p, pre, post, n, rfl, hf, hlist, hlast, hn, rfl⟩

theorem evictFromMfuGhost_cases {B : Build} {r r' : ArcReplacer} {o : Option FrameId}
    (h : r.evictFromMfuGhost B = .ok (o, r')) :
    (o = none ∧ r' = r ∧ ∀ e ∈ r.mfu, e.1 ∉ r.evictablePages) ∨
      ∃ f p pre post n, o = some f ∧ f ∈ r.evictablePages ∧ r.mfu = pre ++ (f, p) :: post ∧
        (∀ e ∈ post, e.1 ∉ r.evictablePages) ∧ B.subU32 r.currSize 1 = .ok n ∧ r' = { r with
          mfu := pre ++ post
          mfuGhost := p :: r.mfuGhost
          evictablePages := r.evictablePages.erase f
          timestampAccess := r.timestampAccess.erase (f, p)
          currSize := n } := by
  rw [evictFromMfuGhost] at h
  split at h
  · next hnone =>
      obtain ⟨rfl, rfl⟩ := Prod.mk.inj (Except.ok.inj h)
      exact Or.inl ⟨rfl, rfl, lastEvictable_eq_none.mp hnone⟩
  · next i f p hsome =>
      obtain ⟨n, hn, h⟩ := bind_eq_ok.mp h
      obtain ⟨rfl, rfl⟩ := Prod.mk.inj (Except.ok.inj h)
      obtain ⟨pre, post, hlist, herase, hf, hlast⟩ := lastEvictable_eq_some hsome
      rw [herase]
      exact Or.inr ⟨f, p, pre, post, n, rfl, hf, hlist, hlast, hn, rfl⟩

/-- What `evict` can do: nothing, when no entry has an evictable frame, or
one eviction. -/
theorem evict_cases {B : Build} {r r' : ArcReplacer} {o : Option FrameId}
    (h : r.evict B = .ok (o, r')) :
    (o = none ∧ r' = r ∧ ∀ e ∈ r.mru ++ r.mfu, e.1 ∉ r.evictablePages) ∨
      ∃ f p, o = some f ∧ Evicted B r f p r' := by
  rw [evict] at h
  -- the second list is scanned only if the first one has no victim
  split at h
  · obtain ⟨⟨o₁, r₁⟩, h₁, hrest⟩ := bind_eq_ok.mp h
    rcases evictFromMruGhost_cases h₁ with
      ⟨rfl, rfl, hmru⟩ | ⟨f, p, pre, post, n, rfl, hf, hlist, hlast, hn, rfl⟩
    · rcases evictFromMfuGhost_cases hrest with
        ⟨rfl, rfl, hmfu⟩ | ⟨f, p, pre, post, n, rfl, hf, hlist, hlast, hn, rfl⟩
      · exact Or.inl ⟨rfl, rfl, List.forall_mem_append.mpr ⟨hmru, hmfu⟩⟩
      · exact Or.inr ⟨f, p, rfl, .fromMfu pre post n hf hlist hlast hn⟩
    · obtain ⟨rfl, rfl⟩ := Prod.mk.inj (Except.ok.inj hrest)
      exact Or.inr ⟨f, p, rfl, .fromMru pre post n hf hlist hlast hn⟩
  · obtain ⟨⟨o₁, r₁⟩, h₁, hrest⟩ := bind_eq_ok.mp h
    rcases evictFromMfuGhost_cases h₁ with
      ⟨rfl, rfl, hmfu⟩ | ⟨f, p, pre, post, n, rfl, hf, hlist, hlast, hn, rfl⟩
    · rcases evictFromMruGhost_cases hrest with
        ⟨rfl, rfl, hmru⟩ | ⟨f, p, pre, post, n, rfl, hf, hlist, hlast, hn, rfl⟩
      · exact Or.inl ⟨rfl, rfl, List.forall_mem_append.mpr ⟨hmru, hmfu⟩⟩
      · exact Or.inr ⟨f, p, rfl, .fromMru pre post n hf hlist hlast hn⟩
    · obtain ⟨rfl, rfl⟩ := Prod.mk.inj (Except.ok.inj hrest)
      exact Or.inr ⟨f, p, rfl, .fromMfu pre post n hf hlist hlast hn⟩

end ArcReplacer

end StorageEngine
