import StorageEngine.Pool.Client
import StorageEngine.Tree.PoolIndex

/-!
The whole stack: the tree on its pool, the pool a client of the scheduler, the
worker with the disk, and other clients of the same disk.

The life of a tree is one program of disk requests. With these served at once
it does what the tree does on a pool with its disk; all of them are for pages
the pool has created. So the tree is served through the scheduler as if the
disk were its own, and answers as an ordered index in every interleaving.
-/

namespace StorageEngine

open Lib Lib.BPlus

/-- A session with a disk put in. -/
def Session.onDisk (s : Session) (dm : DiskManager) : Session :=
  { s with pool := s.pool.onDisk dm }

namespace PoolClient

/-- What a command of the tree does, on a pool without its disk. -/
def step (B : Build) (order : HashOrder) :
    ∀ β, PageCmd β → Session → DiskProg Abort (β × Session)
  | _, .newPage, s => do
      let (p, pool) ← newPage s.pool
      return (p, { s with pool })
  | _, .check kind p, s => do
      let (guard, pool) ← checkPage .panic B order s.pool kind p
      return ((), { pool, guards := guard :: s.guards })
  | _, .data p, s => do
      let guard ← .lift (PoolStore.guardOn s p)
      return (s.pool.data guard, s)
  | _, .dataMut p, s => do
      let guard ← .lift (PoolStore.guardOn s p)
      return (s.pool.data guard, { s with pool := s.pool.dataMut guard })
  | _, .store p page, s => do
      let guard ← .lift (PoolStore.guardOn s p)
      return ((), { s with pool := s.pool.store guard page })
  | _, .drop p, s => do
      let guard ← .lift (PoolStore.guardOn s p)
      let pool ← attempt .panic (s.pool.dropGuard B guard)
      return ((), { pool, guards := s.guards.erase guard })

/-- The life of a tree, as a program of disk requests. -/
def life (B : Build) (order : HashOrder) (S : KeySort) (L M n : ℕ) (key : Key) (rid : RecordId)
    (ops : List IndexOp) (dm : DiskManager) :
    DiskProg Abort ((BTree × List IndexReply) × Session) :=
  (BTree.life B S L M key rid ops).handle (step B order) (.new n dm)

section Step

variable {B : Build} {order : HashOrder}

/-- The reply of a command and the session, with the disk put in. -/
def replyOnDisk {β : Type} (r : (β × Session) × DiskManager) : β × Session :=
  (r.1.1, r.1.2.onDisk r.2)

/-- The end of a command that called the pool. -/
theorem call_carries {α β γ : Type} {join : α → DiskManager → γ} {p : DiskProg Abort α}
    {x : DiskManager → Except Panic γ} {f : γ → β × Session} {g : α → β × Session}
    (hp : Carries .panic join p x)
    (hfg : ∀ a dm, f (join a dm) = replyOnDisk (g a, dm)) (dm : DiskManager) :
    (PoolStore.call (x dm) >>= fun c => .ok (f c)) =
      ((p >>= fun a => pure (g a)).run (DiskManager.answer .panic) dm).map replyOnDisk := by
  rw [PoolStore.call, hp dm, Prog.run_bind]
  cases p.run (DiskManager.answer .panic) dm with
  | error e => rfl
  | ok r => exact congrArg Except.ok (hfg r.1 r.2)

/-- A command that looks up its guard first. -/
theorem guardOn_carries {β : Type} {s : Session} {p : PageId} {dm : DiskManager}
    {f : Guard → Except Abort (β × Session)} {g : Guard → DiskProg Abort (β × Session)}
    (hfg : ∀ guard, f guard =
      ((g guard).run (DiskManager.answer .panic) dm).map replyOnDisk) :
    (PoolStore.guardOn s p >>= f) =
      ((Prog.lift (PoolStore.guardOn s p) >>= g).run (DiskManager.answer .panic) dm).map
        replyOnDisk := by
  cases PoolStore.guardOn s p with
  | error e => rfl
  | ok guard => exact hfg guard

/-- **Each command** does the same on the pool with its disk. -/
theorem step_onDisk (β : Type) (c : PageCmd β) (s : Session) (dm : DiskManager) :
    PoolStore.step B order β c (s.onDisk dm) =
      ((step B order β c s).run (DiskManager.answer .panic) dm).map replyOnDisk := by
  cases c with
  | newPage => exact call_carries newPage_carries (fun _ _ => rfl) dm
  | check kind p => exact call_carries checkPage_carries (fun _ _ => rfl) dm
  | data p => exact guardOn_carries fun _ => rfl
  | dataMut p => exact guardOn_carries fun _ => rfl
  | store p page => exact guardOn_carries fun _ => rfl
  | drop p =>
      apply guardOn_carries
      intro guard
      exact call_carries dropGuard_carries (fun _ _ => rfl) dm

theorem run_life (S : KeySort) (L M n : ℕ) (key : Key) (rid : RecordId) (ops : List IndexOp)
    (dm : DiskManager) :
    PoolStore.exec B order (BTree.life B S L M key rid ops) (.new n dm) =
      ((life B order S L M n key rid ops dm).run (DiskManager.answer .panic) dm).map
        replyOnDisk := by
  show (BTree.life B S L M key rid ops).run _ ((Session.new n dm).onDisk dm) = _
  exact Prog.run_handle step_onDisk

end Step

/-! ### The requests of the tree -/

/-- What a command asks of the disk is a page of `mine`, and on disk when it
is read. -/
def AsksFor (mine : PageId → Prop) : ∀ β, PageCmd β → Session → Prop
  | _, .newPage, s => mine s.pool.nextPageId
  | _, .check _ p, s => ∃ (n : ℕ) (σ : PageId → Page) (L : PageId → Prop),
      s.pool.Coherent n σ L ∧ L p ∧ (∀ q f, s.pool.pageTable.lookup q = some f → L q) ∧
        ∀ q, L q → mine q
  | _, _, _ => True

section Requests

variable {B : Build} {order : HashOrder} {mine : PageId → Prop} {N n : ℕ} {hN : N ≤ 4294967295}
  {st : PlainStore (.counting N hN)} {s : Session} {dm : DiskManager}

theorem guardOn_along {β : Type} {p : PageId} {g : Guard → DiskProg Abort (β × Session)}
    (hg : ∀ guard, (g guard).Along (DiskManager.answer .panic) (SharedDisk.KeepsTo mine) dm) :
    (Prog.lift (PoolStore.guardOn s p) >>= g).Along (DiskManager.answer .panic)
      (SharedDisk.KeepsTo mine) dm := by
  cases PoolStore.guardOn s p with
  | error e => trivial
  | ok guard => exact hg guard

theorem step_along (β : Type) (c : PageCmd β) (s : Session) (dm : DiskManager)
    (hasks : AsksFor mine β c (s.onDisk dm)) :
    (step B order β c s).Along (DiskManager.answer .panic) (SharedDisk.KeepsTo mine) dm := by
  cases c with
  | newPage => exact Prog.along_bind (newPage_along hasks) fun _ _ _ => trivial
  | check kind p =>
      obtain ⟨n, σ, L, hcoherent, hpage, hknown, hmine⟩ := hasks
      exact Prog.along_bind (checkPage_along hcoherent hpage hknown hmine) fun _ _ _ => trivial
  | data p => exact guardOn_along fun _ => trivial
  | dataMut p => exact guardOn_along fun _ => trivial
  | store p page => exact guardOn_along fun _ => trivial
  | drop p =>
      apply guardOn_along
      intro guard
      exact Prog.along_bind along_attempt fun _ _ _ => trivial

theorem toNat_lt_of_mem_counting {p : PageId} (hp : p ∈ (IdSupply.counting N hN).ids) :
    p.toNat < N := by
  obtain ⟨i, hi, rfl⟩ := List.mem_map.mp hp
  have hlt := List.mem_range.mp hi
  rw [UInt32.toNat_ofNat_of_lt' (by show i < 4294967296; omega)]
  exact hlt

/-- A session that mirrors a plain store asks for the pages issued. -/
theorem asksFor_of_mirrors (hm : s.Mirrors n st) {β : Type} {c : PageCmd β} {b : β}
    {st' : PlainStore (.counting N hN)} (hstep : PlainStore.step β c st = .ok (b, st')) :
    AsksFor (fun p => p.toNat < N) β c s := by
  have hcases := PlainStore.step_cases hstep
  cases c with
  | newPage =>
      obtain ⟨rest, hfresh, -⟩ := hcases
      have hlen := congrArg List.length hfresh
      rw [PlainStore.fresh, List.length_drop, PoolStore.length_counting, List.length_cons] at hlen
      show s.pool.nextPageId.toNat < N
      rw [hm.next]
      omega
  | check kind p =>
      obtain ⟨hissued, -⟩ := hcases
      exact ⟨n, st.content, (· ∈ st.issued), hm.pool, hissued, hm.known,
        fun q hq => toNat_lt_of_mem_counting (List.mem_of_mem_take hq)⟩
  | data p => trivial
  | dataMut p => trivial
  | store p page => trivial
  | drop p => trivial

/-- The life of a tree asks its disk for the pages its pool created, and reads
those that are there. -/
theorem life_keepsTo {S : KeySort} {L M : ℕ} {key : Key} {rid : RecordId} {ops : List IndexOp}
    (hL : 1 ≤ L ∧ L ≤ 511) (hM : 2 ≤ M ∧ M ≤ 681)
    (hs : (IdSupply.counting N hN).Suffices L M (Index.inserts ops + 1))
    (hshallow : (IdSupply.counting N hN).Shallow L M (Index.inserts ops + 1) n) (hpos : 1 ≤ n)
    (hn : 3 * n < 2 ^ 32) (hsized : dm.Sized) (hpacked : dm.Packed)
    (hserves : (BTree.life B S L M key rid ops).Along (PoolStore.step B order)
      (PoolStore.Serves B) (.new n dm)) :
    (life B order S L M n key rid ops dm).Along (DiskManager.answer .panic)
      (SharedDisk.KeepsTo fun p => p.toNat < N) dm := by
  obtain ⟨tree, replies, st, au, h, t, records, haudit, halong, -⟩ :=
    PlainStore.audited_life (B := B) (S := S) hL hM key rid ops hs hshallow hpos
  have hasks : (BTree.life B S L M key rid ops).Along (PoolStore.step B order)
      (AsksFor fun p => p.toNat < N) (.new n dm) := by
    refine Prog.along_sim (fun β c x s b x' hR hgood hgood' hx => ⟨?_, ?_⟩)
      (Session.new_follows hn hsized hpacked) halong hserves haudit
    · exact asksFor_of_mirrors hR.mirrors (Prog.audited_eq_ok.mp hx).1
    · exact Session.step_follows order β c x s b x' hR hgood.1 hgood' hx
  exact Prog.along_handle step_onDisk step_along
    (show (BTree.life B S L M key rid ops).Along _ _ ((Session.new n dm).onDisk dm) from hasks)

end Requests

/-! ### The whole stack -/

/-- The tree has not failed, and comes to an end; then it has answered as an
index that starts with the records `first`, and holds no guard. -/
structure AnswersIndex (first : Index Key RecordId) (ops : List IndexOp)
    (s : SharedDisk Abort ((BTree × List IndexReply) × Session)) : Prop where
  runs : ∀ e, s.client ≠ .fail e
  answers : ∀ r, s.client = .ret r → Index.Answers first ops r.1.2 ∧ r.2.guards = []
  ends : ∃ events s', (∀ request, .other request ∉ events) ∧
    run (SharedDisk.step .panic) events s = some s' ∧ ∃ r, s'.client = .ret r

/-- **The whole stack, in every interleaving.** -/
theorem stack_answers_throughout (B : Build) (order : HashOrder) (S : KeySort) {L M n : ℕ}
    (hL : 1 ≤ L ∧ L ≤ 511) (hM : 2 ≤ M ∧ M ≤ 681) (hpos : 1 ≤ n) (hn : 3 * n < 2 ^ 32)
    (key : Key) (rid : RecordId) (ops : List IndexOp) (N : ℕ) (hN : N ≤ 4294967295)
    (hids : (IdSupply.counting N hN).Suffices L M (Index.inserts ops + 1))
    (hlevels : (IdSupply.counting N hN).Shallow L M (Index.inserts ops + 1) n) (dbFile : DbFile)
    (hf : dbFile.NoFaults) (dm : DiskManager) (hnew : DiskManager.new dbFile = .ok dm)
    (hserves : (BTree.life B S L M key rid ops).Along (PoolStore.step B order)
      (PoolStore.Serves B) (.new n dm))
    (events : List ClientEvent)
    (hothers : Along (SharedDisk.step .panic) (SharedDisk.OthersApart fun p => p.toNat < N) []
      events (.new (life B order S L M n key rid ops dm) dm)) :
    Throughout (SharedDisk.step .panic) (fun _ => AnswersIndex {(key, rid)} ops) [] events
      (.new (life B order S L M n key rid ops dm) dm) := by
  obtain rfl : DiskManager.fresh dbFile = dm := by
    simpa [DiskManager.new_eq_fresh hf] using hnew
  have htracks := DiskManager.fresh_tracks hf
  obtain ⟨tree, replies, st, au, s₀, h, t, records, hexec, hfollows, -, hb, -, hanswers⟩ :=
    PoolStore.exec_life_follows hL hM hids hlevels hpos hn htracks.1 htracks.2.1 hserves
  have hguards := PoolStore.guards_eq_nil hfollows.mirrors hb.held
  rw [run_life] at hexec
  obtain ⟨⟨r₀, alone₀⟩, halone, hr₀⟩ :
      ∃ r, (life B order S L M n key rid ops (.fresh dbFile)).run (DiskManager.answer .panic)
        (.fresh dbFile) = .ok r ∧ replyOnDisk r = ((tree, replies), s₀) := by
    cases hrun : (life B order S L M n key rid ops (.fresh dbFile)).run
        (DiskManager.answer .panic) (.fresh dbFile) with
    | error e => simp [hrun, Except.map] at hexec
    | ok r =>
        rw [hrun] at hexec
        exact ⟨r, rfl, Except.ok.inj hexec⟩
  have hkeeps := life_keepsTo hL hM hids hlevels hpos hn htracks.1 htracks.2.1 hserves
  apply (SharedDisk.serving_throughout htracks hkeeps hothers).mono
  rintro hist s ⟨served, waiting, hserving⟩
  obtain ⟨hreturns, hpanics, events', s', hours, hrun, hend⟩ := hserving.servedAlone htracks
  refine ⟨fun e he => ?_, fun r hr => ?_, events', s', hours, hrun, ?_⟩
  · simp [hpanics e he] at halone
  · obtain ⟨alone, hrunr, -⟩ := hreturns r hr
    obtain ⟨rfl, -⟩ := ok_pair_unique halone hrunr
    obtain ⟨hreplies, hsession⟩ := Prod.mk.inj hr₀
    refine ⟨?_, ?_⟩
    · rw [show r₀.1 = (tree, replies) from hreplies]
      exact hanswers
    · rw [← hguards, ← hsession]
      rfl
  · obtain ⟨r, alone, hr, -⟩ | ⟨e, -, he⟩ := hend
    · exact ⟨r, hr⟩
    · simp [he] at halone

/-- Somebody else writes page 30 and reads it, before the tree has its 25
requests served in turn and comes to its end. -/
theorem stack_answers_throughout_branching :
    Throughout (SharedDisk.step .panic)
      (fun _ => AnswersIndex {((4 : Key), RecordId.mk 0 4)} PlainStore.branchingOps) []
      (.other ⟨.write, 30, .ofFn pageSize fun _ => 7⟩ :: .other ⟨.read, 30, .zero _⟩ ::
        .work :: .work :: (List.replicate 25 [.send, .work, .recv]).flatten)
      (.new (life ⟨true⟩ .listed .insertion 1 2 10 4 ⟨0, 4⟩ PlainStore.branchingOps
        (.fresh DiskManager.blankFile)) (.fresh DiskManager.blankFile)) := by
  apply stack_answers_throughout ⟨true⟩ .listed .insertion (by decide) (by decide) (by decide)
    (by decide) 4 ⟨0, 4⟩ _ 17 (by decide) (IdSupply.suffices_of_square (by decide))
    (IdSupply.shallow_of_height (by decide)) DiskManager.blankFile (fun _ => rfl) _
    (DiskManager.new_eq_fresh fun _ => rfl) (by decide +kernel)
  intro s₁ _
  refine ⟨?_, fun s₂ _ => ⟨?_, Along.of_forall fun e he hist s => ?_⟩⟩
  · rintro request ⟨⟩
    exact ⟨by decide, nofun⟩
  · rintro request ⟨⟩
    exact ⟨by decide, fun _ => by simp [SharedDisk.others, DiskRequest.call, DiskManager.lastWrite]⟩
  · rintro request rfl
    simp at he

end PoolClient

end StorageEngine
