import StorageEngine.Pool.Retarget
import StorageEngine.Tree.Builds
import StorageEngine.Tree.PoolIndex

/-!
The index on its pool without overflow checks.

Where the target size of the replacer may wrap around, a page request fails the
tree only if it evicts a page that is held. A session mirrors a plain store up
to the target size, and each command finds one in range that decides alike.
Lookups and scans hold no page when they ask for one, so that nothing can go
wrong for them. With the checks, the same run panics at an overflow or does the
same.
-/

namespace StorageEngine

open Lib Lib.BPlus

namespace BufferPoolManager

/-- The replacer that records an access has the target size from before. -/
theorem recorder_mruTargetSize (B : Build) (bpm : BufferPoolManager) :
    (bpm.recorder B).mruTargetSize = bpm.arcReplacer.mruTargetSize := by
  rw [recorder, victim]
  split
  · next f r hvictim =>
      split at hvictim
      · next f' r' _ hevict =>
          obtain ⟨-, rfl⟩ := Prod.mk.inj (Option.some.inj hvictim)
          rcases ArcReplacer.evict_cases hevict with ⟨hnone, -⟩ | ⟨f'', p, -, hev⟩
          · cases hnone
          · exact hev.mruTargetSize_eq
      · cases hvictim
  · rfl

end BufferPoolManager

namespace Session

variable {N n : ℕ} {hN : N ≤ 4294967295} {st : PlainStore (.counting N hN)} {au : Audit}
  {s : Session} {B : Build} {p : PageId} {t : ℕ}

def retarget (s : Session) (t : ℕ) : Session := { s with pool := s.pool.retarget t }

theorem Mirrors.retarget (h : s.Mirrors n st) (ht : t ≤ n) : (s.retarget t).Mirrors n st := by
  obtain ⟨hpart, hsized, hpacked, hresident, honDisk⟩ := h.pool
  obtain ⟨hsize, -, htotal, hmarked⟩ := h.bounded
  exact ⟨⟨h.tracked.pool.retarget t, h.tracked.clean, h.tracked.guards⟩, h.counted, h.held,
    ⟨hsize, ht.trans h.tracked.pool.size.ge, htotal, hmarked⟩,
    ⟨hpart.retarget t, hsized, hpacked, hresident, honDisk⟩, h.known, h.next, h.nodup, h.pages⟩

theorem Accounts.retarget (h : s.Accounts st au) (t : ℕ) : (s.retarget t).Accounts st au :=
  ⟨h.durable, h.shown, h.spent⟩

/-- The request takes no frame from a guard. -/
def SparesGuards (B : Build) (s : Session) (p : PageId) : Prop :=
  s.pool.pageTable.lookup p = none → ∀ v ∈ s.pool.victim B, s.liveOn v.1 = 0

instance (B : Build) (s : Session) (p : PageId) : Decidable (s.SparesGuards B p) :=
  inferInstanceAs (Decidable (_ → _))

/-- With a target size above zero that is all it takes. -/
theorem SparesGuards.serves (h : s.SparesGuards B p) (hpos : 1 ≤ t)
    (hsame : s.pool.arcReplacer.SameVictims t) : (s.retarget t).Serves B p := by
  intro hnone
  refine ⟨fun v hv => ?_, fun hunder => ?_⟩
  · obtain ⟨r, hr⟩ := BufferPoolManager.victim_retarget hsame hv
    exact h hnone (v.1, r) hr
  · have hzero := hunder.2.2.2
    rw [BufferPoolManager.recorder_mruTargetSize] at hzero
    exact absurd hzero (Nat.pos_iff_ne_zero.mp hpos)

theorem sparesGuards_of_nil (h : s.guards = []) : s.SparesGuards B p := by
  intro _ v _
  rw [liveOn, h, List.countP_nil]

end Session

namespace PoolStore

variable {N n : ℕ} {hN : N ≤ 4294967295} {s : Session} {B : Build} {order : HashOrder} {t : ℕ}

/-- Every request takes no frame from a guard. -/
def SparesGuards (B : Build) : ∀ β, PageCmd β → Session → Prop
  | _, .check _ p, s => s.SparesGuards B p
  | _, _, _ => True

instance (B : Build) : ∀ β c s, Decidable (SparesGuards B β c s)
  | _, .check _ p, s => inferInstanceAs (Decidable (s.SparesGuards B p))
  | _, .newPage, _ => .isTrue trivial
  | _, .data _, _ => .isTrue trivial
  | _, .dataMut _, _ => .isTrue trivial
  | _, .store _ _, _ => .isTrue trivial
  | _, .drop _, _ => .isTrue trivial

/-- **Each command** does the same with a target size that decides alike. -/
theorem step_retarget (hB : B.overflowChecks = false)
    (h : s.pool.arcReplacer.SameVictims t) (order : HashOrder) (β : Type) (c : PageCmd β) :
    Matches (fun a b => ∃ t', b = (a.1, a.2.retarget t')) (step B order β c s)
      (step B order β c (s.retarget t)) := by
  cases c with
  | newPage =>
      refine .bind ((BufferPoolManager.newPage_retarget s.pool t).mapError _ _) ?_
      rintro ⟨p, pool⟩ _ rfl
      exact .ok ⟨t, rfl⟩
  | check kind p =>
      refine .bind ((BufferPoolManager.checkPage_retarget hB h order kind p).mapError _ _) ?_
      rintro ⟨g, pool⟩ _ ⟨t', rfl⟩
      exact .ok ⟨t', rfl⟩
  | data p => exact .next (guardOn s p) fun _ => .ok ⟨t, rfl⟩
  | dataMut p => exact .next (guardOn s p) fun _ => .ok ⟨t, rfl⟩
  | store p page => exact .next (guardOn s p) fun _ => .ok ⟨t, rfl⟩
  | drop p =>
      refine .next (guardOn s p) fun g => ?_
      refine .bind ((BufferPoolManager.dropGuard_retarget B s.pool t g).mapError _ _) ?_
      rintro pool _ rfl
      exact .ok ⟨t, rfl⟩

/-- The session follows the audited store, with some target size. -/
def Follows (n : ℕ) (x : PlainStore (.counting N hN) × Audit) (s : Session) : Prop :=
  ∃ t, (s.retarget t).Follows n x

/-- **Each command** that takes no frame from a guard keeps the relation. -/
theorem step_follows (hB : B.overflowChecks = false) (order : HashOrder) (hpos : 1 ≤ n) {K : ℕ}
    (hK : K < 2 ^ 32) (β : Type) (c : PageCmd β) (x : PlainStore (.counting N hN) × Audit)
    (s : Session) (b : β) (x' : PlainStore (.counting N hN) × Audit) (hx : Follows n x s)
    (hgood : PlainStore.Sound n β c x ∧ x.2.requests ≤ K) (hspares : SparesGuards B β c s)
    (haudit : Prog.audited PlainStore.step Audit.log β c x = .ok (b, x')) :
    ∃ s', step B order β c s = .ok (b, s') ∧ Follows n x' s' := by
  obtain ⟨t₀, hm₀, ha₀⟩ := hx
  have htracking : s.pool.Tracking n :=
    hm₀.tracked.pool.retarget s.pool.arcReplacer.mruTargetSize
  obtain ⟨t, hone, hle, hsame⟩ := htracking.exists_sameVictims hpos
  have hf : (s.retarget t).Follows n x :=
    ⟨hm₀.retarget hle, ha₀.retarget t⟩
  have hserves : Serves B β c (s.retarget t) := by
    cases c with
    | check kind p => exact hspares.serves hone hsame
    | drop p =>
        have hheld := (PlainStore.step_cases (Prog.audited_eq_ok.mp haudit).1).1
        exact hf.accounts.room hheld (hgood.2.trans_lt hK)
    | newPage => trivial
    | data p => trivial
    | dataMut p => trivial
    | store p page => trivial
  obtain ⟨s₁, hpool, hf₁⟩ :=
    Session.step_follows order β c x (s.retarget t) b x' hf hgood.1 hserves haudit
  obtain ⟨out, hstep, t', rfl⟩ := step_retarget hB hsame.symm order β c (b, s₁) hpool
  exact ⟨s₁.retarget t', hstep, s₁.pool.arcReplacer.mruTargetSize, hf₁⟩

/-- A command of a program that holds one page at a time asks for a page when
it holds none. -/
theorem step_reads (hB : B.overflowChecks = false) (order : HashOrder) (hpos : 1 ≤ n) {K : ℕ}
    (hK : K < 2 ^ 32) (β : Type) (c : PageCmd β) (x : PlainStore (.counting N hN) × Audit)
    (s : Session) (b : β) (x' : PlainStore (.counting N hN) × Audit) (hx : Follows n x s)
    (hgood : PlainStore.Sound 1 β c x ∧ x.2.requests ≤ K)
    (haudit : Prog.audited PlainStore.step Audit.log β c x = .ok (b, x')) :
    SparesGuards B β c s ∧ ∃ s', step B order β c s = .ok (b, s') ∧ Follows n x' s' := by
  have hspares : SparesGuards B β c s := by
    cases c with
    | check kind p =>
        obtain ⟨t, hm, -⟩ := hx
        have hnone : x.1.held.card < 1 := hgood.1
        have hlen : s.guards.length = x.1.held.card := hm.length_guards
        exact Session.sparesGuards_of_nil (List.eq_nil_of_length_eq_zero (by omega))
    | newPage => trivial
    | data p => trivial
    | dataMut p => trivial
    | store p page => trivial
    | drop p => trivial
  exact ⟨hspares, step_follows hB order hpos hK β c x s b x' hx
    ⟨hgood.1.mono hpos, hgood.2⟩ hspares haudit⟩

section Runs

variable {S : KeySort} {L M : ℕ} {key : Key} {rid : RecordId} {ops reads : List IndexOp}
  {dm : DiskManager}

/-- The life of a tree whose requests take no frame from a guard, and lookups
and scans after it. -/
theorem exec_life_reads (hB : B.overflowChecks = false) (hL : 1 ≤ L ∧ L ≤ 511)
    (hM : 2 ≤ M ∧ M ≤ 681) (hreads : Index.inserts reads = 0)
    (hs : (IdSupply.counting N hN).Suffices L M (Index.inserts ops + 1))
    (hshallow : (IdSupply.counting N hN).Shallow L M (Index.inserts ops + 1) n) (hpos : 1 ≤ n)
    (hn : 3 * n < 2 ^ 32) (hcost : 2 + (ops.length + reads.length) * (3 * N) < 2 ^ 32)
    (hsized : dm.Sized) (hpacked : dm.Packed)
    (hspares : (BTree.life B S L M key rid ops).Along (step B order) (SparesGuards B)
      (.new n dm)) :
    ∃ (tree : BTree) (replies : List IndexReply) (s : Session),
      exec B order (BTree.life B S L M key rid (ops ++ reads)) (.new n dm) =
        .ok ((tree, replies), s) ∧
      Index.Answers {(key, rid)} (ops ++ reads) replies ∧ s.guards = [] := by
  obtain ⟨tree, replies, st, h, t, records, hrun, hleaf, hinternal, hb, hall, hanswers⟩ :=
    PlainStore.exec_life (B := B) (S := S) hL hM key rid ops hs
  have hpasses : PlainStore.Passes n _ _ _ Audit.new :=
    PlainStore.passes_life (B := B) (S := S) hL hM key rid ops hs hshallow hpos
  obtain ⟨au, haudit, hrequests⟩ := hpasses.exists_run hrun
  have hlen : records.length = Index.inserts ops + 1 := by
    have hcard := congrArg Multiset.card hall
    rw [Index.card_foldl_after, Multiset.card_singleton, Multiset.coe_card] at hcard
    omega
  rw [← hlen, ← hleaf, ← hinternal] at hs
  -- the lookups and scans, on the plain store
  obtain ⟨tree', replies', st', h', t', records', hrun', -, -, hb', -, hanswers'⟩ :=
    PlainStore.exec_serveAll (B := B) (S := S) reads hb (by rwa [hreads])
  have hpasses' : PlainStore.Passes 1 _ _ _ au :=
    PlainStore.passes_serveAll (B := B) (S := S) le_rfl reads hb (by rwa [hreads])
      fun hne => absurd hreads hne
  obtain ⟨au', haudit', hrequests'⟩ := hpasses'.exists_run hrun'
  rw [length_counting] at hrequests hrequests'
  have hK : au'.requests < 2 ^ 32 := by
    rw [Nat.add_mul] at hcost
    have hnew : Audit.new.requests = 0 := rfl
    omega
  have hle : au.requests ≤ au'.requests :=
    (Prog.along_le (fun β c x b x' hx => PlainStore.requests_le β c x b x' hx) haudit').1
  -- both parts, on the pool
  obtain ⟨s, hpool, hfollows⟩ := Prog.run_sim
    (fun β c x s b x' hR hgood hgood' hx => step_follows hB order hpos (hle.trans_lt hK) β c x s b
      x' hR hgood hgood' hx)
    ⟨0, Session.new_follows hn hsized hpacked⟩ (hpasses.along haudit) hspares haudit
  obtain ⟨-, s', hpool', t₀, hfollows'⟩ := Prog.run_sim_along
    (fun β c x s b x' hR hgood hx => step_reads hB order hpos hK β c x s b x' hR hgood hx)
    hfollows (hpasses'.along haudit') haudit'
  refine ⟨tree', replies ++ replies', s', ?_, hanswers.append (by rwa [← hall]),
    guards_eq_nil (s := s'.retarget t₀) hfollows'.mirrors hb'.held⟩
  rw [BTree.life_append, exec, Prog.run_bind_ok hpool]
  exact (Prog.run_bind_ok hpool').trans rfl

end Runs

/-- **Without overflow checks** the index fails on no lookup and on no scan: after
a run whose inserts take no frame from a guard, any of them are answered as an
ordered index answers them, with no guard left behind. With the checks, the
same run panics at an overflow, or ends in the same state. -/
theorem pool_reads_answer (order : HashOrder) (S : KeySort) {L M n : ℕ} (hL : 1 ≤ L ∧ L ≤ 511)
    (hM : 2 ≤ M ∧ M ≤ 681) (hpos : 1 ≤ n) (hn : 3 * n < 2 ^ 32) (key : Key) (rid : RecordId)
    (ops reads : List IndexOp) (hreads : Index.inserts reads = 0) (N : ℕ) (hN : N ≤ 4294967295)
    (hids : (IdSupply.counting N hN).Suffices L M (Index.inserts ops + 1))
    (hlevels : (IdSupply.counting N hN).Shallow L M (Index.inserts ops + 1) n)
    (hcost : 2 + (ops.length + reads.length) * (3 * N) < 2 ^ 32) (dbFile : DbFile)
    (hf : dbFile.NoFaults) (dm : DiskManager) (hnew : DiskManager.new dbFile = .ok dm)
    (hspares : (BTree.life ⟨false⟩ S L M key rid ops).Along (step ⟨false⟩ order)
      (SparesGuards ⟨false⟩) (.new n dm)) :
    ∃ (tree : BTree) (replies : List IndexReply) (s : Session),
      exec ⟨false⟩ order (BTree.life ⟨false⟩ S L M key rid (ops ++ reads)) (.new n dm) =
        .ok ((tree, replies), s) ∧
      Index.Answers {(key, rid)} (ops ++ reads) replies ∧ s.guards = [] ∧
      (exec ⟨true⟩ order (BTree.life ⟨true⟩ S L M key rid (ops ++ reads)) (.new n dm) =
          .error (.panic .overflow) ∨
        exec ⟨true⟩ order (BTree.life ⟨true⟩ S L M key rid (ops ++ reads)) (.new n dm) =
          .ok ((tree, replies), s)) := by
  obtain rfl : DiskManager.fresh dbFile = dm := by
    simpa [DiskManager.new_eq_fresh hf] using hnew
  obtain ⟨hsized, hpacked, -⟩ := DiskManager.fresh_tracks hf
  obtain ⟨tree, replies, s, hrun, hanswers, hguards⟩ := exec_life_reads rfl hL hM hreads hids
    hlevels hpos hn hcost hsized hpacked hspares
  refine ⟨tree, replies, s, hrun, hanswers, hguards, ?_⟩
  rw [← hrun]
  exact (BTree.life_build ⟨false⟩ S key L M rid (ops ++ reads)).run (step_build ⟨false⟩ order) _

/-- Three leaves and their root on four frames, where the target size comes to
wrap around. -/
theorem pool_reads_answer_scan :
    ∃ (tree : BTree) (replies : List IndexReply) (s : Session),
      exec ⟨false⟩ .listed (BTree.life ⟨false⟩ .insertion 1 681 1 ⟨0, 1⟩
        ([.insert 2 ⟨0, 2⟩, .insert 3 ⟨0, 3⟩] ++ [.scan 1, .find 3]))
        (.new 4 (.fresh DiskManager.blankFile)) = .ok ((tree, replies), s) ∧
      Index.Answers {((1 : Key), RecordId.mk 0 1)}
        ([.insert 2 ⟨0, 2⟩, .insert 3 ⟨0, 3⟩] ++ [.scan 1, .find 3]) replies ∧
      s.guards = [] ∧
      (exec ⟨true⟩ .listed (BTree.life ⟨true⟩ .insertion 1 681 1 ⟨0, 1⟩
          ([.insert 2 ⟨0, 2⟩, .insert 3 ⟨0, 3⟩] ++ [.scan 1, .find 3]))
          (.new 4 (.fresh DiskManager.blankFile)) = .error (.panic .overflow) ∨
        exec ⟨true⟩ .listed (BTree.life ⟨true⟩ .insertion 1 681 1 ⟨0, 1⟩
          ([.insert 2 ⟨0, 2⟩, .insert 3 ⟨0, 3⟩] ++ [.scan 1, .find 3]))
          (.new 4 (.fresh DiskManager.blankFile)) = .ok ((tree, replies), s)) :=
  pool_reads_answer .listed .insertion (by decide) (by decide) (by decide) (by decide) 1 ⟨0, 1⟩ _ _
    (by decide) 8 (by decide) (IdSupply.suffices_of_leaves (by decide) (by decide) (by decide))
    (IdSupply.shallow_of_height (by decide)) (by decide) DiskManager.blankFile (fun _ => rfl) _
    (DiskManager.new_eq_fresh fun _ => rfl) (by decide +kernel)

end PoolStore

end StorageEngine
