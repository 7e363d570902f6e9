import StorageEngine.Pool.Flush
import StorageEngine.Tree.Audit

/-!
The index on its buffer pool.

A session that mirrors an audited store also keeps what its disk needs: the
frames of pages shown for writing are marked dirty, so that a clean frame has
the bytes of its page on disk. The audit bounds `curr_size`, which grows by no
more than one a request. What is left to ask for is that the requests are
served; with a frame for each page of the tree they always are.
-/

namespace StorageEngine

open Lib Lib.BPlus

namespace BufferPoolManager

variable {B : Build} {order : HashOrder} {n : ℕ} {bpm bpm' : BufferPoolManager}

/-- A frame marked dirty owes nothing to the disk. -/
theorem Durable.setDirty (h : bpm.Durable) (f : FrameId) {header : FrameHeader}
    (hdirty : header.isDirty = true) : (bpm.setFrame f header).Durable := by
  intro p f' hp hclean
  have hne : f' ≠ f := by
    rintro rfl
    simp [hdirty] at hclean
  rw [setFrame_frames, Function.update_of_ne hne] at hclean ⊢
  exact h p f' hp hclean

/-- A page that was resident before a request and still is has kept the mark
of its frame. -/
theorem checkPage_isDirty (h : bpm.Partition n) {kind : GuardKind} {p q : PageId} {g : Guard}
    {f : FrameId} (hcheck : bpm.checkPage B order kind p = .ok (g, bpm'))
    (hbefore : (bpm.pageTable.lookup q).isSome) (hafter : bpm'.pageTable.lookup q = some f) :
    bpm.pageTable.lookup q = some f ∧ (bpm'.frames f).isDirty = (bpm.frames f).isDirty := by
  have hload : ∀ {bpm₁ : BufferPoolManager}, bpm.pageTable.lookup p = none →
      bpm₁.loadPage B kind p = .ok (g, bpm') →
      bpm₁.pageTable.lookup q = some f ∧ (bpm'.frames f).isDirty = (bpm₁.frames f).isDirty := by
    intro bpm₁ hp hload
    obtain ⟨f₁, rest, data, dm, r, -, -, -, -, -, rfl⟩ := loadPage_cases hload
    have hne : q ≠ p := by
      rintro rfl
      simp [hp] at hbefore
    have hlook : (bpm₁.pageTable.insert p f₁).lookup q = some f := hafter
    rw [HashMap.lookup_insert_eq, if_neg hne] at hlook
    exact ⟨hlook, (update_field FrameHeader.isDirty (by rfl) f).trans
      (update_field FrameHeader.isDirty (by rfl) f)⟩
  rcases checkPage_cases hcheck with ⟨f₁, r, -, -, -, -, rfl⟩ | ⟨hp, -, hl⟩ |
    ⟨hp, -, bpm₁, hevict, hl⟩
  · exact ⟨hafter, update_field FrameHeader.isDirty (by rfl) f⟩
  · exact hload hp hl
  · obtain ⟨hlook, hdirty⟩ := hload hp hl
    obtain ⟨f₁, p', r, q', reply, dm, -, -, -, hq', -, rfl⟩ := evictFrame_cases hevict
    obtain ⟨-, hlook'⟩ := HashMap.lookup_erase_eq_some.mp hlook
    -- the frame of the evicted page is not the one of `q`
    have hne : f ≠ f₁ := by
      rintro rfl
      exact (HashMap.lookup_erase_eq_some.mp hlook).1 (h.injective hlook' hq')
    refine ⟨hlook', hdirty.trans ?_⟩
    show (Function.update bpm.frames f₁ _ f).isDirty = _
    rw [Function.update_of_ne hne]

/-- A request never makes `curr_size` greater. -/
theorem checkPage_currSize (hb : bpm.arcReplacer.Bounded) {kind : GuardKind} {p : PageId}
    {g : Guard} (hcheck : bpm.checkPage B order kind p = .ok (g, bpm')) :
    bpm'.arcReplacer.currSize ≤ bpm.arcReplacer.currSize := by
  have hload : ∀ {bpm₁ : BufferPoolManager}, bpm₁.loadPage B kind p = .ok (g, bpm') →
      bpm'.arcReplacer.currSize = bpm₁.arcReplacer.currSize := by
    intro bpm₁ hload
    obtain ⟨f₁, rest, data, dm, r, -, -, -, hr, -, rfl⟩ := loadPage_cases hload
    exact (ArcReplacer.recordAccess_recorded hr).currSize_eq
  rcases checkPage_cases hcheck with ⟨f₁, r, -, -, hr, -, rfl⟩ | ⟨-, -, hl⟩ |
    ⟨-, -, bpm₁, hevict, hl⟩
  · exact (ArcReplacer.recordAccess_recorded hr).currSize_eq.le
  · exact (hload hl).le
  · obtain ⟨f₁, p', r, q', reply, dm, -, hev, -, -, -, rfl⟩ := evictFrame_cases hevict
    have hsub := ArcReplacer.subU32_currSize (B := B) hb hev.evictable.1
    rw [hload hl]
    show r.currSize ≤ bpm.arcReplacer.currSize
    cases hev with
    | fromMru pre post m hf list last size =>
        obtain rfl := Except.ok.inj (size.symm.trans hsub)
        exact Nat.sub_le _ _
    | fromMfu pre post m hf list last size =>
        obtain rfl := Except.ok.inj (size.symm.trans hsub)
        exact Nat.sub_le _ _

theorem dropGuard_currSize {g : Guard} (hdrop : bpm.dropGuard B g = .ok bpm')
    (hsize : bpm.arcReplacer.currSize + 1 < 2 ^ 32) :
    bpm'.arcReplacer.currSize ≤ bpm.arcReplacer.currSize + 1 := by
  rcases dropGuard_cases hdrop with ⟨-, rfl⟩ | ⟨-, r, hr, rfl⟩
  · exact Nat.le_succ _
  · obtain ⟨m, hm, rfl⟩ := ArcReplacer.setEvictable_eq_ok.mp hr
    rw [B.addU32_eq hsize] at hm
    exact (Except.ok.inj hm).symm.le

end BufferPoolManager

namespace PoolStore

variable {B : Build} {order : HashOrder} {s s' : Session} {p : PageId}

theorem call_eq_ok {α : Type} {x : Except Panic α} {a : α} : call x = .ok a ↔ x = .ok a := by
  cases x <;> simp [call, Except.mapError]

theorem guardOn_eq_ok {g : Guard} (h : guardOn s p = .ok g) : g ∈ s.guards ∧ g.pageId = p := by
  rw [guardOn] at h
  split at h
  · next g' hfind =>
      obtain rfl := Except.ok.inj h
      exact ⟨List.mem_of_find?_eq_some hfind, by simpa using List.find?_some hfind⟩
  · simp at h

/-- What a command did, where it was carried out. -/
theorem step_cases : ∀ {β : Type} {c : PageCmd β} {b : β}, step B order β c s = .ok (b, s') →
    match c, b with
    | .newPage, p => ∃ pool, s.pool.newPage = .ok (p, pool) ∧ s' = ⟨pool, s.guards⟩
    | .check kind p, _ => ∃ g pool, s.pool.checkPage B order kind p = .ok (g, pool) ∧
        s' = ⟨pool, g :: s.guards⟩
    | .data _, _ => s' = s
    | .dataMut p, _ => ∃ g ∈ s.guards, g.pageId = p ∧ s' = ⟨s.pool.dataMut g, s.guards⟩
    | .store p page, _ => ∃ g ∈ s.guards, g.pageId = p ∧ s' = ⟨s.pool.store g page, s.guards⟩
    | .drop p, _ => ∃ g ∈ s.guards, g.pageId = p ∧ ∃ pool, s.pool.dropGuard B g = .ok pool ∧
        s' = ⟨pool, s.guards.erase g⟩ := by
  intro β c b h
  cases c with
  | newPage =>
      obtain ⟨⟨p, pool⟩, hnew, h⟩ := bind_eq_ok.mp h
      obtain ⟨rfl, rfl⟩ := Prod.mk.inj (Except.ok.inj h)
      exact ⟨pool, call_eq_ok.mp hnew, rfl⟩
  | check kind p =>
      obtain ⟨⟨g, pool⟩, hcheck, h⟩ := bind_eq_ok.mp h
      obtain ⟨-, rfl⟩ := Prod.mk.inj (Except.ok.inj h)
      exact ⟨g, pool, call_eq_ok.mp hcheck, rfl⟩
  | data p =>
      obtain ⟨g, hg, h⟩ := bind_eq_ok.mp h
      obtain ⟨-, rfl⟩ := Prod.mk.inj (Except.ok.inj h)
      rfl
  | dataMut p =>
      obtain ⟨g, hg, h⟩ := bind_eq_ok.mp h
      obtain ⟨-, rfl⟩ := Prod.mk.inj (Except.ok.inj h)
      exact ⟨g, (guardOn_eq_ok hg).1, (guardOn_eq_ok hg).2, rfl⟩
  | store p page =>
      obtain ⟨g, hg, h⟩ := bind_eq_ok.mp h
      obtain ⟨-, rfl⟩ := Prod.mk.inj (Except.ok.inj h)
      exact ⟨g, (guardOn_eq_ok hg).1, (guardOn_eq_ok hg).2, rfl⟩
  | drop p =>
      obtain ⟨g, hg, h⟩ := bind_eq_ok.mp h
      obtain ⟨pool, hdrop, h⟩ := bind_eq_ok.mp h
      obtain ⟨-, rfl⟩ := Prod.mk.inj (Except.ok.inj h)
      exact ⟨g, (guardOn_eq_ok hg).1, (guardOn_eq_ok hg).2, pool, call_eq_ok.mp hdrop, rfl⟩

end PoolStore

namespace PlainStore

variable {I : IdSupply} {st st' : PlainStore I} {p : PageId}

/-- What a command did on a plain store. -/
theorem step_cases : ∀ {β : Type} {c : PageCmd β} {b : β}, step β c st = .ok (b, st') →
    match c, b with
    | .newPage, p => ∃ rest, st.fresh = p :: rest ∧ st' = st.alloc p
    | .check _ p, _ => p ∈ st.issued ∧ p ∉ st.held ∧ st' = st.hold p
    | .data _, _ => st' = st
    | .dataMut p, _ => p ∈ st.held ∧ st' = st
    | .store p page, _ => p ∈ st.held ∧ st' = st.put p page
    | .drop p, _ => p ∈ st.held ∧ st' = st.release p := by
  intro β c b h
  cases c with
  | newPage =>
      rw [step] at h
      split at h
      · simp at h
      · next p hp =>
          obtain ⟨rfl, rfl⟩ := Prod.mk.inj (Except.ok.inj h)
          obtain ⟨hlt, rfl⟩ := List.getElem?_eq_some_iff.mp hp
          exact ⟨_, List.drop_eq_getElem_cons hlt, rfl⟩
  | check kind p =>
      rw [step] at h
      split at h
      · next hp =>
          obtain ⟨-, rfl⟩ := Prod.mk.inj (Except.ok.inj h)
          exact ⟨hp.1, hp.2, rfl⟩
      · simp at h
  | data p =>
      rw [step] at h
      split at h
      · exact (Prod.mk.inj (Except.ok.inj h)).2.symm
      · simp at h
  | dataMut p =>
      rw [step] at h
      split at h
      · next hp => exact ⟨hp, (Prod.mk.inj (Except.ok.inj h)).2.symm⟩
      · simp at h
  | store p page =>
      rw [step] at h
      split at h
      · next hp => exact ⟨hp, (Prod.mk.inj (Except.ok.inj h)).2.symm⟩
      · simp at h
  | drop p =>
      rw [step] at h
      split at h
      · next hp => exact ⟨hp, (Prod.mk.inj (Except.ok.inj h)).2.symm⟩
      · simp at h

end PlainStore

namespace Session

variable {N n : ℕ} {hN : N ≤ 4294967295} {st : PlainStore (.counting N hN)} {au : Audit}
  {x x' : PlainStore (.counting N hN) × Audit} {s s' : Session} {B : Build} {order : HashOrder}
  {p : PageId}

/-- What the session owes: a frame whose bytes were shown for writing is
marked dirty, so that a clean frame is on disk, and each guard that was dropped
or is held was asked for. -/
structure Accounts (st : PlainStore (.counting N hN)) (au : Audit) (s : Session) : Prop where
  durable : s.pool.Durable
  shown : ∀ p ∈ au.shown, p ∈ st.held ∧
    ∀ f, s.pool.pageTable.lookup p = some f → (s.pool.frames f).isDirty = true
  spent : s.pool.arcReplacer.currSize + st.held.card ≤ au.requests

/-- A page with a guard is resident. -/
theorem Mirrors.resident_of_held (hm : s.Mirrors n st) (hp : p ∈ st.held) :
    ∃ g ∈ s.guards, g.pageId = p ∧ s.pool.pageTable.lookup p = some g.frameId := by
  rw [← hm.pages, List.mem_toFinset, List.mem_map] at hp
  obtain ⟨g, hg, rfl⟩ := hp
  exact ⟨g, hg, rfl, hm.held g hg⟩

namespace Accounts

variable {pool : BufferPoolManager} {g : Guard}

theorem newPage (h : s.Accounts st au) (hm : s.Mirrors n st) {rest : List PageId}
    (hfresh : st.fresh = p :: rest)
    (hnew : s.pool.newPage = .ok (p, pool)) :
    Accounts (st.alloc p) au ⟨pool, s.guards⟩ := by
  have hnone : s.pool.pageTable.lookup p = none := by
    rw [Option.eq_none_iff_forall_not_mem]
    exact fun f hf => PlainStore.notMem_issued hfresh (hm.known p f hf)
  refine ⟨h.durable.newPage hm.pool hnone hnew, ?_, ?_⟩
  · obtain ⟨-, reply, dm, -, rfl⟩ := BufferPoolManager.newPage_eq_ok.mp hnew
    exact h.shown
  · obtain ⟨-, reply, dm, -, rfl⟩ := BufferPoolManager.newPage_eq_ok.mp hnew
    exact h.spent

theorem checkPage (h : s.Accounts st au) (hm : s.Mirrors n st) (hp : p ∈ st.issued)
    (hfree : p ∉ st.held) {kind : GuardKind}
    (hcheck : s.pool.checkPage B order kind p = .ok (g, pool)) :
    Accounts (st.hold p) ⟨au.requests + 1, au.shown⟩ ⟨pool, g :: s.guards⟩ := by
  refine ⟨h.durable.checkPage hm.pool hp hcheck, fun q hq => ?_, ?_⟩
  · obtain ⟨hheld, hdirty⟩ := h.shown q hq
    refine ⟨Finset.mem_insert_of_mem hheld, fun f hf => ?_⟩
    obtain ⟨g', -, -, hres⟩ := hm.resident_of_held hheld
    obtain ⟨hbefore, hmark⟩ :=
      BufferPoolManager.checkPage_isDirty hm.pool.partition hcheck (by simp [hres]) hf
    exact hmark.trans (hdirty f hbefore)
  · have hsize := BufferPoolManager.checkPage_currSize hm.bounded hcheck
    have hspent := h.spent
    show pool.arcReplacer.currSize + (insert p st.held).card ≤ au.requests + 1
    rw [Finset.card_insert_of_notMem hfree]
    omega

/-- The frame of a held page gets a header that is marked dirty. -/
theorem setDirty (h : s.Accounts st au) (hm : s.Mirrors n st) (hg : g ∈ s.guards)
    {header : FrameHeader} (hdirty : header.isDirty = true)
    {st' : PlainStore (.counting N hN)} (hheld : st'.held = st.held) :
    Accounts st' ⟨au.requests, insert g.pageId au.shown⟩
      ⟨s.pool.setFrame g.frameId header, s.guards⟩ := by
  have hmarked : ∀ f, f = g.frameId ∨ (s.pool.frames f).isDirty = true →
      ((s.pool.setFrame g.frameId header).frames f).isDirty = true := by
    intro f hf
    rw [BufferPoolManager.setFrame_frames]
    by_cases heq : f = g.frameId
    · rw [heq, Function.update_self]
      exact hdirty
    · rw [Function.update_of_ne heq]
      exact hf.resolve_left heq
  have h : Accounts st' au s := by
    refine ⟨h.durable, ?_, ?_⟩
    · rw [hheld]
      exact h.shown
    · rw [hheld]
      exact h.spent
  refine ⟨h.durable.setDirty g.frameId hdirty, fun q hq => ?_, h.spent⟩
  rcases Finset.mem_insert.mp hq with rfl | hq
  · refine ⟨?_, fun f hf => hmarked f (Or.inl ?_)⟩
    · rw [hheld, ← hm.pages, List.mem_toFinset]
      exact List.mem_map_of_mem hg
    · exact Option.some.inj (hf.symm.trans (hm.held g hg))
  · obtain ⟨hheld, hmark⟩ := h.shown q hq
    exact ⟨hheld, fun f hf => hmarked f (Or.inr (hmark f hf))⟩

theorem dropGuard (h : s.Accounts st au) (hp : g.pageId ∈ st.held)
    (hsize : s.pool.arcReplacer.currSize + 1 < 2 ^ 32)
    (hdrop : s.pool.dropGuard B g = .ok pool) :
    Accounts (st.release g.pageId) ⟨au.requests, au.shown.erase g.pageId⟩
      ⟨pool, s.guards.erase g⟩ := by
  refine ⟨h.durable.dropGuard hdrop, fun q hq => ?_, ?_⟩
  · obtain ⟨hne, hq⟩ := Finset.mem_erase.mp hq
    obtain ⟨hheld, hmark⟩ := h.shown q hq
    refine ⟨Finset.mem_erase.mpr ⟨hne, hheld⟩, fun f hf => ?_⟩
    have hsame : ∀ f, ((s.pool.unpinned g.frameId).frames f).isDirty =
        (s.pool.frames f).isDirty := BufferPoolManager.update_field FrameHeader.isDirty (by rfl)
    rcases BufferPoolManager.dropGuard_cases hdrop with ⟨-, rfl⟩ | ⟨-, r, -, rfl⟩
    · exact (hsame f).trans (hmark f hf)
    · exact (hsame f).trans (hmark f hf)
  · have hgrow := BufferPoolManager.dropGuard_currSize hdrop hsize
    have hcard := Finset.card_erase_add_one hp
    have hspent := h.spent
    show pool.arcReplacer.currSize + (st.held.erase g.pageId).card ≤ au.requests
    omega

/-- Few requests leave `curr_size` room for a guard that is dropped. -/
theorem room (h : s.Accounts st au) (hp : p ∈ st.held) (hfew : au.requests < 2 ^ 32) :
    s.pool.arcReplacer.currSize + 1 < 2 ^ 32 := by
  have hspent := h.spent
  have hpos := Finset.card_pos.mpr ⟨p, hp⟩
  omega

end Accounts

/-- The session mirrors an audited store and keeps its accounts. -/
structure Follows (n : ℕ) (x : PlainStore (.counting N hN) × Audit) (s : Session) : Prop where
  mirrors : s.Mirrors n x.1
  accounts : s.Accounts x.1 x.2

theorem new_follows {dm : DiskManager} (hn : 3 * n < 2 ^ 32) (hs : dm.Sized)
    (hp : dm.Packed) : (new n dm).Follows n ((.new (.counting N hN)), .new) where
  mirrors := new_mirrors hn hs hp
  accounts := ⟨BufferPoolManager.new_durable n dm, fun p hp => absurd hp (Finset.notMem_empty p),
    le_rfl⟩

/-- **Each command** of an audited program keeps the relation. -/
theorem step_follows (order : HashOrder) (β : Type) (c : PageCmd β)
    (x : PlainStore (.counting N hN) × Audit) (s : Session) (b : β)
    (x' : PlainStore (.counting N hN) × Audit) (hx : s.Follows n x)
    (hsound : PlainStore.Sound n β c x) (hserves : PoolStore.Serves B β c s)
    (haudit : Prog.audited PlainStore.step Audit.log β c x = .ok (b, x')) :
    ∃ s', PoolStore.step B order β c s = .ok (b, s') ∧ s'.Follows n x' := by
  obtain ⟨st, au⟩ := x
  obtain ⟨st', au'⟩ := x'
  obtain ⟨hstep, hlog⟩ := Prog.audited_eq_ok.mp haudit
  simp only at hstep hlog
  subst hlog
  obtain ⟨hm, ha⟩ := hx
  simp only at hm ha
  obtain ⟨s', hpool, hm'⟩ := step_mirrors order β c st s b st' hm hsound.fits hserves hstep
  refine ⟨s', hpool, hm', ?_⟩
  have hplain := PlainStore.step_cases hstep
  have hdone := PoolStore.step_cases hpool
  simp only
  cases c with
  | newPage =>
      obtain ⟨rest, hfresh, rfl⟩ := hplain
      obtain ⟨pool, hnew, rfl⟩ := hdone
      exact ha.newPage hm hfresh hnew
  | check kind p =>
      obtain ⟨hissued, hfree, rfl⟩ := hplain
      obtain ⟨g, pool, hcheck, rfl⟩ := hdone
      exact ha.checkPage hm hissued hfree hcheck
  | data p =>
      obtain rfl := hplain
      obtain rfl := hdone
      exact ha
  | dataMut p =>
      obtain ⟨-, rfl⟩ := hplain
      obtain ⟨g, hg, rfl, rfl⟩ := hdone
      refine ha.setDirty hm hg ?_ rfl
      rfl
  | store p page =>
      obtain ⟨-, rfl⟩ := hplain
      obtain ⟨g, hg, rfl, rfl⟩ := hdone
      have hshown : g.pageId ∈ au.shown := hsound
      have hstored : Accounts (st.put g.pageId page) ⟨au.requests, insert g.pageId au.shown⟩
          ⟨s.pool.store g page, s.guards⟩ := by
        refine ha.setDirty hm hg ?_ rfl
        exact (ha.shown _ hshown).2 _ (hm.held g hg)
      rwa [Finset.insert_eq_of_mem hshown] at hstored
  | drop p =>
      obtain ⟨hp, rfl⟩ := hplain
      obtain ⟨g, hg, rfl, pool, hdrop, rfl⟩ := hdone
      exact ha.dropGuard hp hserves hdrop

/-! ### A frame for each page -/

/-- Nothing was ever evicted. -/
def NoGhosts (s : Session) : Prop :=
  s.pool.arcReplacer.mruGhost = [] ∧ s.pool.arcReplacer.mfuGhost = []

/-- The pages that were handed out do not fill the pool. -/
theorem Mirrors.freeFrames_ne_nil (hm : s.Mirrors n st) (hroom : N ≤ n) (hp : p ∈ st.issued)
    (hnone : s.pool.pageTable.lookup p = none) : s.pool.freeFrames ≠ [] := by
  intro hnil
  have hsub : s.pool.pageTable.keys ⊆ st.issued.erase p := by
    intro q hq
    obtain ⟨f, hf⟩ := Option.isSome_iff_exists.mp (AList.lookup_isSome.mpr hq)
    have hne : q ≠ p := by
      rintro rfl
      simp [hnone] at hf
    exact (List.mem_erase_of_ne hne).mpr (hm.known q f hf)
  have hfew := (List.subperm_of_subset s.pool.pageTable.keys_nodup hsub).length_le
  have hall := hm.pool.partition.length
  have hissued : st.issued.length ≤ N := by
    refine (List.length_take_le' _ _).trans ?_
    simp [IdSupply.counting]
  have hpos := List.length_pos_of_mem hp
  rw [hnil, List.length_nil, BufferPoolManager.mappedFrames, List.length_map] at hall
  rw [List.length_erase_of_mem hp, AList.keys, List.keys, List.length_map] at hfew
  omega

theorem Mirrors.serves (hm : s.Mirrors n st) (hroom : N ≤ n) (hghost : s.NoGhosts)
    (hp : p ∈ st.issued) (B : Build) : s.Serves B p := by
  intro hnone
  have hvictim := BufferPoolManager.victim_of_free (B := B) (hm.freeFrames_ne_nil hroom hp hnone)
  refine ⟨?_, ?_⟩
  · rw [hvictim]
    intro v hv
    exact absurd hv (Option.not_mem_none v)
  · rw [BufferPoolManager.recorder, hvictim]
    rintro ⟨-, hmem, -⟩
    rw [hghost.2] at hmem
    exact List.not_mem_nil hmem

/-- A request that finds a free frame for its page evicts nothing. -/
theorem NoGhosts.checkPage (h : s.NoGhosts) {kind : GuardKind} {g : Guard}
    {pool : BufferPoolManager} (hcheck : s.pool.checkPage B order kind p = .ok (g, pool))
    (hfree : s.pool.pageTable.lookup p = none → s.pool.freeFrames ≠ []) :
    NoGhosts ⟨pool, g :: s.guards⟩ := by
  have hrecord : ∀ {f r}, s.pool.arcReplacer.recordAccess B f p = .ok r →
      r.mruGhost = [] ∧ r.mfuGhost = [] := by
    intro f r hr
    obtain ⟨hmru, hmfu⟩ := h
    cases ArcReplacer.recordAccess_recorded hr <;> simp_all
  rcases BufferPoolManager.checkPage_cases hcheck with ⟨f, r, -, -, hr, -, rfl⟩ |
    ⟨-, -, hload⟩ | ⟨hnone, hnil, -⟩
  · exact hrecord hr
  · obtain ⟨f, rest, data, dm, r, -, -, -, hr, -, rfl⟩ := BufferPoolManager.loadPage_cases hload
    exact hrecord hr
  · exact absurd hnil (hfree hnone)

theorem NoGhosts.dropGuard (h : s.NoGhosts) {g : Guard} {pool : BufferPoolManager}
    (hdrop : s.pool.dropGuard B g = .ok pool) (guards : List Guard) : NoGhosts ⟨pool, guards⟩ := by
  rcases BufferPoolManager.dropGuard_cases hdrop with ⟨-, rfl⟩ | ⟨-, r, hr, rfl⟩
  · exact h
  · obtain ⟨m, -, rfl⟩ := ArcReplacer.setEvictable_eq_ok.mp hr
    exact h

/-- **Each command** is served where there is a frame for each page. -/
theorem step_resident (order : HashOrder) (hroom : N ≤ n) {K : ℕ} (hK : K < 2 ^ 32) (β : Type)
    (c : PageCmd β) (x : PlainStore (.counting N hN) × Audit) (s : Session) (b : β)
    (x' : PlainStore (.counting N hN) × Audit) (hx : s.Follows n x ∧ s.NoGhosts)
    (hgood : PlainStore.Sound n β c x ∧ x.2.requests ≤ K)
    (haudit : Prog.audited PlainStore.step Audit.log β c x = .ok (b, x')) :
    (PoolStore.Serves B β c s ∧ s.NoGhosts) ∧
      ∃ s', PoolStore.step B order β c s = .ok (b, s') ∧ s'.Follows n x' ∧ s'.NoGhosts := by
  obtain ⟨hfollows, hghost⟩ := hx
  have hplain := PlainStore.step_cases (Prog.audited_eq_ok.mp haudit).1
  have hserves : PoolStore.Serves B β c s := by
    cases c with
    | check kind p => exact hfollows.mirrors.serves hroom hghost hplain.1 B
    | drop p => exact hfollows.accounts.room hplain.1 (hgood.2.trans_lt hK)
    | newPage => trivial
    | data p => trivial
    | dataMut p => trivial
    | store p page => trivial
  obtain ⟨s', hpool, hfollows'⟩ :=
    step_follows order β c x s b x' hfollows hgood.1 hserves haudit
  refine ⟨⟨hserves, hghost⟩, s', hpool, hfollows', ?_⟩
  have hdone := PoolStore.step_cases hpool
  cases c with
  | newPage =>
      obtain ⟨pool, hnew, rfl⟩ := hdone
      obtain ⟨-, reply, dm, -, rfl⟩ := BufferPoolManager.newPage_eq_ok.mp hnew
      exact hghost
  | check kind p =>
      obtain ⟨g, pool, hcheck, rfl⟩ := hdone
      exact hghost.checkPage hcheck (hfollows.mirrors.freeFrames_ne_nil hroom hplain.1)
  | data p =>
      obtain rfl := hdone
      exact hghost
  | dataMut p =>
      obtain ⟨g, -, -, rfl⟩ := hdone
      exact hghost
  | store p page =>
      obtain ⟨g, -, -, rfl⟩ := hdone
      exact hghost
  | drop p =>
      obtain ⟨g, -, -, pool, hdrop, rfl⟩ := hdone
      exact hghost.dropGuard hdrop _

end Session

namespace PoolStore

variable {B : Build} {order : HashOrder} {S : KeySort} {L M N n : ℕ} {hN : N ≤ 4294967295}
  {key : Key} {rid : RecordId} {ops : List IndexOp} {dm : DiskManager}

theorem length_counting (N : ℕ) (hN : N ≤ 4294967295) :
    (IdSupply.counting N hN).ids.length = N := by
  simp [IdSupply.counting]

/-- The life of a tree on a pool that serves its requests. -/
theorem exec_life_follows (hL : 1 ≤ L ∧ L ≤ 511) (hM : 2 ≤ M ∧ M ≤ 681)
    (hs : (IdSupply.counting N hN).Suffices L M (Index.inserts ops + 1))
    (hshallow : (IdSupply.counting N hN).Shallow L M (Index.inserts ops + 1) n) (hpos : 1 ≤ n)
    (hn : 3 * n < 2 ^ 32) (hsized : dm.Sized) (hpacked : dm.Packed)
    (hserves : (BTree.life B S L M key rid ops).Along (step B order) (Serves B) (.new n dm)) :
    ∃ (tree : BTree) (replies : List IndexReply) (st : PlainStore (.counting N hN)) (au : Audit)
        (s : Session) (h : ℕ) (t : PageTree h) (records : List LeafKv),
      exec B order (BTree.life B S L M key rid ops) (.new n dm) = .ok ((tree, replies), s) ∧
      s.Follows n (st, au) ∧ au.requests ≤ 2 + ops.length * (3 * N) ∧ st.Built tree t records ∧
      (records : Index _ _) = ops.foldl Index.after {(key, rid)} ∧
      Index.Answers {(key, rid)} ops replies := by
  obtain ⟨tree, replies, st, au, h, t, records, haudit, halong, hrequests, hb, hall, hanswers⟩ :=
    PlainStore.audited_life (B := B) (S := S) hL hM key rid ops hs hshallow hpos
  rw [length_counting] at hrequests
  obtain ⟨s, hrun, hfollows⟩ := Prog.run_sim
    (fun β c x s b x' hR hgood hgood' => Session.step_follows order β c x s b x' hR hgood.1 hgood')
    (Session.new_follows hn hsized hpacked) halong hserves haudit
  exact ⟨tree, replies, st, au, s, h, t, records, hrun, hfollows, hrequests, hb, hall, hanswers⟩

theorem guards_eq_nil {st : PlainStore (.counting N hN)} {s : Session}
    (hm : s.Mirrors n st) (hheld : st.held = ∅) : s.guards = [] := by
  have hlen := hm.length_guards
  rw [hheld, Finset.card_empty] at hlen
  exact List.eq_nil_of_length_eq_zero hlen

/-- **The index on its pool.** A tree whose levels fit into the pool answers
every run of inserts, lookups and scans whose requests the pool serves as an
ordered index does, and leaves no guard behind. -/
theorem pool_life_answers (B : Build) (order : HashOrder) (S : KeySort) {L M n : ℕ}
    (hL : 1 ≤ L ∧ L ≤ 511) (hM : 2 ≤ M ∧ M ≤ 681) (hpos : 1 ≤ n) (hn : 3 * n < 2 ^ 32)
    (key : Key) (rid : RecordId) (ops : List IndexOp) (N : ℕ) (hN : N ≤ 4294967295)
    (hids : (IdSupply.counting N hN).Suffices L M (Index.inserts ops + 1))
    (hlevels : (IdSupply.counting N hN).Shallow L M (Index.inserts ops + 1) n) (dbFile : DbFile)
    (hf : dbFile.NoFaults) (dm : DiskManager) (hnew : DiskManager.new dbFile = .ok dm)
    (hserves : (BTree.life B S L M key rid ops).Along (step B order) (Serves B) (.new n dm)) :
    ∃ (tree : BTree) (replies : List IndexReply) (s : Session),
      exec B order (BTree.life B S L M key rid ops) (.new n dm) = .ok ((tree, replies), s) ∧
      Index.Answers {(key, rid)} ops replies ∧ s.guards = [] := by
  obtain rfl : DiskManager.fresh dbFile = dm := by
    simpa [DiskManager.new_eq_fresh hf] using hnew
  obtain ⟨hsized, hpacked, -⟩ := DiskManager.fresh_tracks hf
  obtain ⟨tree, replies, st, au, s, h, t, records, hrun, hfollows, -, hb, -, hanswers⟩ :=
    exec_life_follows hL hM hids hlevels hpos hn hsized hpacked hserves
  exact ⟨tree, replies, s, hrun, hanswers, guards_eq_nil hfollows.mirrors hb.held⟩

/-- Ten pages under the header on ten frames, in branches of two children. -/
theorem pool_life_answers_branching :
    ∃ (tree : BTree) (replies : List IndexReply) (s : Session),
      exec ⟨true⟩ .listed (BTree.life ⟨true⟩ .insertion 1 2 4 ⟨0, 4⟩ PlainStore.branchingOps)
        (.new 10 (.fresh DiskManager.blankFile)) = .ok ((tree, replies), s) ∧
      Index.Answers {((4 : Key), RecordId.mk 0 4)} PlainStore.branchingOps replies ∧
      s.guards = [] :=
  pool_life_answers ⟨true⟩ .listed .insertion (by decide) (by decide) (by decide) (by decide)
    4 ⟨0, 4⟩ _ 17 (by decide) (IdSupply.suffices_of_square (by decide))
    (IdSupply.shallow_of_height (by decide)) DiskManager.blankFile (fun _ => rfl) _
    (DiskManager.new_eq_fresh fun _ => rfl) (by decide +kernel)

/-- **What is left on disk.** `flush_all_pages` after such a run completes, and
then the disk alone has the header page and every node of the tree, which has
the records inserted. -/
theorem pool_life_durable (B : Build) (order : HashOrder) (S : KeySort) {L M n : ℕ}
    (hL : 1 ≤ L ∧ L ≤ 511) (hM : 2 ≤ M ∧ M ≤ 681) (hpos : 1 ≤ n) (hn : 3 * n < 2 ^ 32)
    (key : Key) (rid : RecordId) (ops : List IndexOp) (N : ℕ) (hN : N ≤ 4294967295)
    (hids : (IdSupply.counting N hN).Suffices L M (Index.inserts ops + 1))
    (hlevels : (IdSupply.counting N hN).Shallow L M (Index.inserts ops + 1) n)
    (hcost : 2 + ops.length * (3 * N) + n < 2 ^ 32) (dbFile : DbFile)
    (hf : dbFile.NoFaults) (dm : DiskManager) (hnew : DiskManager.new dbFile = .ok dm)
    (hserves : (BTree.life B S L M key rid ops).Along (step B order) (Serves B) (.new n dm)) :
    ∃ (tree : BTree) (replies : List IndexReply) (s : Session) (st : PlainStore (.counting N hN))
        (h : ℕ) (t : PageTree h),
      exec B order (BTree.life B S L M key rid ops) (.new n dm) = .ok ((tree, replies), s) ∧
      (st.content tree.headerPageId).getU32 0 = .ok t.id ∧ st.Holds t ∧ t.Searchable ∧
      (t.entries : Index _ _) = ops.foldl Index.after {(key, rid)} ∧
      ∀ order', ∃ flushed pool, s.pool.flushAllPages B order' = .ok (flushed, pool) ∧
        ∀ p ∈ tree.headerPageId :: t.ids, pool.diskManager.contents p = some (st.content p) := by
  obtain rfl : DiskManager.fresh dbFile = dm := by
    simpa [DiskManager.new_eq_fresh hf] using hnew
  obtain ⟨hsized, hpacked, -⟩ := DiskManager.fresh_tracks hf
  obtain ⟨tree, replies, st, au, s, h, t, records, hrun, hfollows, hrequests, hb, hall, -⟩ :=
    exec_life_follows hL hM hids hlevels hpos hn hsized hpacked hserves
  have hr := hb.toRepresents
  have hm := hfollows.mirrors
  have hspent := hfollows.accounts.spent
  refine ⟨tree, replies, s, st, h, t, hrun, hr.header, hr.holds, hr.wellFormed.searchable, ?_,
    fun order' => ?_⟩
  · rw [← hall]
    exact Multiset.coe_eq_coe.mpr hr.entries
  · obtain ⟨flushed, pool, hflush⟩ := BufferPoolManager.flushAllPages_ok (B := B) hm.tracked.pool
      (by simp only at hspent; omega) order'
    refine ⟨flushed, pool, hflush, fun p hp => ?_⟩
    exact BufferPoolManager.flushAllPages_contents hm.pool hfollows.accounts.durable hflush
      (hr.ids.mem_iff.mpr hp)

theorem pool_life_durable_branching :
    ∃ (tree : BTree) (replies : List IndexReply) (s : Session)
        (st : PlainStore (.counting 17 (by decide))) (h : ℕ) (t : PageTree h),
      exec ⟨true⟩ .listed (BTree.life ⟨true⟩ .insertion 1 2 4 ⟨0, 4⟩ PlainStore.branchingOps)
        (.new 10 (.fresh DiskManager.blankFile)) = .ok ((tree, replies), s) ∧
      (st.content tree.headerPageId).getU32 0 = .ok t.id ∧ st.Holds t ∧ t.Searchable ∧
      (t.entries : Index _ _) =
        PlainStore.branchingOps.foldl Index.after {((4 : Key), RecordId.mk 0 4)} ∧
      ∀ order', ∃ flushed pool, s.pool.flushAllPages ⟨true⟩ order' = .ok (flushed, pool) ∧
        ∀ p ∈ tree.headerPageId :: t.ids, pool.diskManager.contents p = some (st.content p) :=
  pool_life_durable ⟨true⟩ .listed .insertion (by decide) (by decide) (by decide) (by decide)
    4 ⟨0, 4⟩ _ 17 (by decide) (IdSupply.suffices_of_square (by decide))
    (IdSupply.shallow_of_height (by decide)) (by decide) DiskManager.blankFile (fun _ => rfl) _
    (DiskManager.new_eq_fresh fun _ => rfl) (by decide +kernel)

/-- **A frame for each page.** A pool with two frames for each leaf that the
records half fill serves every request, in debug and in release builds: nothing
is ever evicted, and the run completes with the replies of the index. -/
theorem pool_life_resident (B : Build) (order : HashOrder) (S : KeySort) {L M n : ℕ}
    (hL : 1 ≤ L ∧ L ≤ 511) (hM : 2 ≤ M ∧ M ≤ 681) (hn : 3 * n < 2 ^ 32) (key : Key)
    (rid : RecordId) (ops : List IndexOp)
    (hframes : 3 ≤ M ∧ 2 * max 1 ((Index.inserts ops + 1) / ((L + 1) / 2)) ≤ n ∨
      (Index.inserts ops + 1) ^ 2 < n)
    (hcost : 2 + ops.length * (3 * n) < 2 ^ 32) (dbFile : DbFile) (hf : dbFile.NoFaults)
    (dm : DiskManager) (hnew : DiskManager.new dbFile = .ok dm) :
    (BTree.life B S L M key rid ops).Along (step B order)
      (fun β c s => Serves B β c s ∧ s.NoGhosts) (.new n dm) ∧
    ∃ (tree : BTree) (replies : List IndexReply) (s : Session),
      exec B order (BTree.life B S L M key rid ops) (.new n dm) = .ok ((tree, replies), s) ∧
      Index.Answers {(key, rid)} ops replies ∧ s.guards = [] := by
  have hN : n ≤ 4294967295 := by omega
  have hlen := length_counting n hN
  have hs : (IdSupply.counting n hN).Suffices L M (Index.inserts ops + 1) :=
    IdSupply.suffices_of_either hL.1 (hlen.symm ▸ hframes)
  have htwo := hs.two_le hL.1 (Nat.le_add_left 1 _)
  have hshallow : (IdSupply.counting n hN).Shallow L M (Index.inserts ops + 1) n :=
    IdSupply.shallow_of_length hlen.le
  obtain rfl : DiskManager.fresh dbFile = dm := by
    simpa [DiskManager.new_eq_fresh hf] using hnew
  obtain ⟨hsized, hpacked, -⟩ := DiskManager.fresh_tracks hf
  obtain ⟨tree, replies, st, au, h, t, records, haudit, halong, hrequests, hb, -, hanswers⟩ :=
    PlainStore.audited_life (B := B) (S := S) hL hM key rid ops hs hshallow (by omega)
  rw [hlen] at hrequests
  obtain ⟨hserved, s, hrun, hfollows, -⟩ := Prog.run_sim_along
    (fun β c x s b x' hR hgood haudit => Session.step_resident order le_rfl
      (hrequests.trans_lt hcost) β c x s b x' hR hgood haudit)
    ⟨Session.new_follows hn hsized hpacked, rfl, rfl⟩ halong haudit
  exact ⟨hserved, tree, replies, s, hrun, hanswers, guards_eq_nil hfollows.mirrors hb.held⟩

/-- The maximal sizes and the ten frames of the pool. -/
theorem pool_life_resident_default :
    (BTree.life ⟨true⟩ .insertion 511 681 5 ⟨1, 0⟩ [.insert 7 ⟨1, 1⟩, .find 5]).Along
      (step ⟨true⟩ .listed) (fun β c s => Serves ⟨true⟩ β c s ∧ s.NoGhosts)
      (.new 10 (.fresh DiskManager.blankFile)) ∧
    ∃ (tree : BTree) (replies : List IndexReply) (s : Session),
      exec ⟨true⟩ .listed (BTree.life ⟨true⟩ .insertion 511 681 5 ⟨1, 0⟩
        [.insert 7 ⟨1, 1⟩, .find 5]) (.new 10 (.fresh DiskManager.blankFile)) =
          .ok ((tree, replies), s) ∧
      Index.Answers {((5 : Key), RecordId.mk 1 0)} [.insert 7 ⟨1, 1⟩, .find 5] replies ∧
      s.guards = [] :=
  pool_life_resident ⟨true⟩ .listed .insertion (by decide) (by decide) (by decide) 5 ⟨1, 0⟩ _
    (by decide) (by decide) DiskManager.blankFile (fun _ => rfl) _
    (DiskManager.new_eq_fresh fun _ => rfl)

end PoolStore

end StorageEngine
