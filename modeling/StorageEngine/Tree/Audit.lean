import StorageEngine.Lib.ProgLogic
import StorageEngine.Tree.Operations
import StorageEngine.Tree.PoolStore

/-!
What the tree asks of its store.

An auditor counts the requests for pages and notes which pages were shown for
writing. In a tree of height `h` a lookup asks for `h + 2` pages and holds one
at a time, a scan asks for the leaves it lists besides, and an insert asks for
no more than `3 * h + 5` and never holds more than `h + 2`. Bytes are stored
only where they were shown for writing before. The height is bounded by the
number of records and by the number of page ids, so that all of this is too.
-/

namespace StorageEngine

open Lib Lib.BPlus

/-- What an auditor notes: how many requests for a page there were, and the
pages shown for writing to the guard that is live on them. -/
structure Audit where
  requests : ℕ
  shown : Finset PageId

def Audit.new : Audit where
  requests := 0
  shown := ∅

def Audit.log : ∀ β, PageCmd β → Audit → Audit
  | _, .check _ _, au => { au with requests := au.requests + 1 }
  | _, .dataMut p, au => { au with shown := insert p au.shown }
  | _, .drop p, au => { au with shown := au.shown.erase p }
  | _, .newPage, au => au
  | _, .data _, au => au
  | _, .store _ _, au => au

namespace PlainStore

variable {I : IdSupply}

/-- No more than `n` pages are held at once, and bytes are stored only where
they were shown for writing. -/
def Sound (n : ℕ) : ∀ β, PageCmd β → PlainStore I × Audit → Prop
  | _, .check _ _, x => x.1.held.card < n
  | _, .store p _, x => p ∈ x.2.shown
  | _, _, _ => True

theorem Sound.fits {n : ℕ} {β : Type} {c : PageCmd β} {x : PlainStore I × Audit}
    (h : Sound n β c x) : x.1.Fits n β c := by
  cases c with
  | check kind p => exact h
  | newPage => trivial
  | data p => trivial
  | dataMut p => trivial
  | store p page => trivial
  | drop p => trivial

theorem Sound.mono {m n : ℕ} {β : Type} {c : PageCmd β} {x : PlainStore I × Audit}
    (h : Sound m β c x) (hle : m ≤ n) : Sound n β c x := by
  cases c with
  | check kind p => exact Nat.lt_of_lt_of_le h hle
  | store p page => exact h
  | newPage => trivial
  | data p => trivial
  | dataMut p => trivial
  | drop p => trivial

/-- The run is sound, and what it ends with satisfies `post`. -/
abbrev Passes {α : Type} (n : ℕ) (post : α → PlainStore I → Audit → Prop) (p : PageProg α)
    (st : PlainStore I) (au : Audit) : Prop :=
  p.Ensures (Prog.audited step Audit.log) (Sound n) (fun a x => post a x.1 x.2) (st, au)

/-! ### One command after the other -/

section Commands

variable {α : Type} {n : ℕ} {post : α → PlainStore I → Audit → Prop} {st : PlainStore I}
  {au : Audit} {p : PageId}

theorem passes_newPage {f : PageId → PageProg α}
    (h : ∀ new rest, st.fresh = new :: rest → Passes n post (f new) (st.alloc new) au) :
    Passes n post (PageProg.newPage >>= f) st au := by
  refine Prog.ensures_call_bind trivial fun b x hs => ?_
  obtain ⟨hs, hlog⟩ := Prog.audited_eq_ok.mp hs
  rw [step] at hs
  split at hs
  · simp at hs
  · next new hnew =>
      obtain ⟨rfl, hst⟩ := Prod.mk.inj (Except.ok.inj hs)
      obtain ⟨hlt, rfl⟩ := List.getElem?_eq_some_iff.mp hnew
      have hfresh := h _ _ (List.drop_eq_getElem_cons hlt)
      rw [hst] at hfresh
      rw [← Prod.mk.eta (p := x), hlog]
      exact hfresh

/-- A command that succeeds under the condition `P`. -/
theorem passes_call {β : Type} {c : PageCmd β} {f : β → PageProg α} {b : β} {st' : PlainStore I}
    {P : Prop} [Decidable P] (hsound : Sound n β c (st, au))
    (hstep : step β c st = if P then .ok (b, st') else .error .misuse)
    (h : P → Passes n post (f b) st' (Audit.log β c au)) :
    Passes n post (Prog.call c >>= f) st au := by
  refine Prog.ensures_call_bind hsound fun b' x hs => ?_
  obtain ⟨hs, hlog⟩ := Prog.audited_eq_ok.mp hs
  rw [hstep] at hs
  split at hs
  · next hP =>
      obtain ⟨rfl, hst⟩ := Prod.mk.inj (Except.ok.inj hs)
      rw [← Prod.mk.eta (p := x), hlog, ← hst]
      exact h hP
  · simp at hs

theorem passes_check {kind : GuardKind} {f : Unit → PageProg α} (hroom : st.held.card < n)
    (h : p ∈ st.issued → p ∉ st.held →
      Passes n post (f ()) (st.hold p) ⟨au.requests + 1, au.shown⟩) :
    Passes n post (PageProg.check kind p >>= f) st au :=
  passes_call hroom rfl fun hp => h hp.1 hp.2

theorem passes_data {f : Page → PageProg α}
    (h : p ∈ st.held → Passes n post (f (st.content p)) st au) :
    Passes n post (PageProg.data p >>= f) st au :=
  passes_call trivial rfl h

theorem passes_dataMut {f : Page → PageProg α}
    (h : p ∈ st.held → Passes n post (f (st.content p)) st ⟨au.requests, insert p au.shown⟩) :
    Passes n post (PageProg.dataMut p >>= f) st au :=
  passes_call trivial rfl h

theorem passes_store {page : Page} {f : Unit → PageProg α} (hshown : p ∈ au.shown)
    (h : p ∈ st.held → Passes n post (f ()) (st.put p page) au) :
    Passes n post (PageProg.store p page >>= f) st au :=
  passes_call hshown rfl h

theorem passes_drop {f : Unit → PageProg α}
    (h : p ∈ st.held →
      Passes n post (f ()) (st.release p) ⟨au.requests, au.shown.erase p⟩) :
    Passes n post (PageProg.drop p >>= f) st au :=
  passes_call trivial rfl h

theorem passes_attempt {β : Type} {x : Except Panic β} {f : β → PageProg α}
    (h : ∀ b, x = .ok b → Passes n post (f b) st au) :
    Passes n post (PageProg.attempt x >>= f) st au := by
  cases x with
  | error e => trivial
  | ok b => exact h b rfl

/-- A computation the program ends with. -/
theorem passes_attempt_last {x : Except Panic α} (h : ∀ a, x = .ok a → post a st au) :
    Passes n post (PageProg.attempt x) st au := by
  cases x with
  | error e => trivial
  | ok a => exact h a rfl

theorem passes_attempt_ok {β : Type} {x : Except Panic β} {b : β} {f : β → PageProg α}
    (hx : x = .ok b) (h : Passes n post (f b) st au) :
    Passes n post (PageProg.attempt x >>= f) st au := by
  subst hx
  exact h

/-- All guards of a stack dropped. -/
theorem passes_dropAll {f : Unit → PageProg α} {ps : List PageId} :
    ∀ {st : PlainStore I} {au : Audit},
      (∀ shown, Passes n post (f ()) { st with held := st.held \ ps.toFinset }
        ⟨au.requests, shown⟩) →
      Passes n post (PageProg.dropAll ps >>= f) st au := by
  induction ps with
  | nil =>
      intro st au h
      have hnone := h au.shown
      simp only [List.toFinset_nil, Finset.sdiff_empty] at hnone
      exact hnone
  | cons p ps ih =>
      intro st au h
      refine passes_drop (f := fun _ => PageProg.dropAll ps >>= f) fun _ => ih fun shown => ?_
      have hset : st.held.erase p \ ps.toFinset = st.held \ (p :: ps).toFinset := by
        rw [List.toFinset_cons, Finset.sdiff_insert, Finset.erase_sdiff_comm]
      rw [held_release, hset]
      exact h shown

theorem Passes.mono {post' : α → PlainStore I → Audit → Prop} {p : PageProg α}
    (h : Passes n post p st au) (hpost : ∀ a st' au', post a st' au' → post' a st' au') :
    Passes n post' p st au :=
  Prog.Ensures.mono h fun a x => hpost a x.1 x.2

theorem passes_bind {β : Type} {mid : β → PlainStore I → Audit → Prop} {p : PageProg β}
    {f : β → PageProg α} (h : Passes n mid p st au)
    (hrest : ∀ b st' au', mid b st' au' → Passes n post (f b) st' au') :
    Passes n post (p >>= f) st au :=
  Prog.ensures_bind (Prog.Ensures.mono h fun b x => hrest b x.1 x.2)

/-- A part of a run whose end is known. -/
theorem Passes.bind_of_exec {β : Type} {mid : β → PlainStore I → Audit → Prop} {p : PageProg β}
    {f : β → PageProg α} {b : β} {st' : PlainStore I} (h : Passes n mid p st au)
    (hrun : exec p st = .ok (b, st'))
    (hrest : ∀ au', mid b st' au' → Passes n post (f b) st' au') :
    Passes n post (p >>= f) st au := by
  obtain ⟨au', hrun'⟩ := Prog.run_audited Audit.log au hrun
  exact Prog.Ensures.bind_of_run h hrun' (hrest au')

end Commands

/-! ### Lookups and scans -/

section Reads

variable {n h : ℕ} {st : PlainStore I} {au : Audit} {t : PageTree h} {tree : BTree}
  {records : List LeafKv} {B : Build} {key : Key}

theorem Holds.hold {h : ℕ} {t : PageTree h} (hh : st.Holds t) (p : PageId) :
    (st.hold p).Holds t := hh

theorem Holds.exists_child {t : PageTree (h + 1)} (hh : st.Holds t) {slot : ℕ}
    {entry : InternalKv}
    (hentry : orPanic Panic.index (t.children.map fun e => (e.1, e.2.id))[slot]? = .ok entry) :
    ∃ child : PageTree h, entry.2 = child.id ∧ st.Holds child := by
  obtain ⟨e, he, rfl⟩ := List.mem_map.mp (List.mem_of_getElem? (orPanic_eq_ok.mp hentry))
  exact ⟨e.2, rfl, hh.child he⟩

/-- A page read under a guard that is dropped again. -/
theorem passes_read {α : Type} {post : α → PlainStore I → Audit → Prop} {p : PageId}
    {f : Page → PageProg α} (hn : 1 ≤ n) (hheld : st.held = ∅)
    (h : ∀ shown, Passes n post (f (st.content p)) (st.hold p) ⟨au.requests + 1, shown⟩) :
    Passes n post (PageProg.check .read p >>= fun _ => PageProg.data p >>= f) st au := by
  refine passes_check ?_ fun _ _ => passes_data fun _ => h au.shown
  rw [hheld, Finset.card_empty]
  exact hn

/-- The loop of `find_leaf` asks for one page on each level. -/
theorem passes_findLeafFrom (hn : 1 ≤ n) : ∀ (turns : ℕ) {h : ℕ} {t : PageTree h} {au : Audit},
    st.Holds t → st.held = ∅ →
    Passes n (fun _ st' au' => st' = st ∧ au'.requests = au.requests + (h + 1))
      (BTree.findLeafFrom B key turns t.id) st au
  | 0, _, _, _, _, _ => trivial
  | turns + 1, h, t, au, hh, hheld => by
      have hback : (st.hold t.id).release t.id = st := release_hold (by simp [hheld])
      rw [BTree.findLeafFrom]
      refine passes_read hn hheld fun shown => ?_
      cases h with
      | zero =>
          obtain ⟨htype, hdecode⟩ := hh.leaf
          refine passes_attempt_ok htype ?_
          simp only [if_true]
          refine passes_attempt_ok hdecode (passes_drop fun _ => Prog.ensures_pure ?_)
          exact ⟨hback, rfl⟩
      | succ h =>
          obtain ⟨htype, hdecode⟩ := hh.branch
          refine passes_attempt_ok htype ?_
          simp only [internalNode_ne, if_false, if_true]
          refine passes_attempt_ok hdecode ?_
          refine passes_attempt fun slot _ => passes_attempt fun entry hentry => ?_
          obtain ⟨child, hid, hchild⟩ := hh.exists_child hentry
          refine passes_drop fun _ => ?_
          rw [hback, hid]
          refine Passes.mono (passes_findLeafFrom hn turns hchild hheld) ?_
          intro _ st' au' hpost
          dsimp only at hpost
          exact ⟨hpost.1, by omega⟩

theorem passes_findLeaf (hn : 1 ≤ n) (hr : st.Represents tree t records) :
    Passes n (fun _ st' au' => st' = st ∧ au'.requests = au.requests + (h + 2))
      (tree.findLeaf B key) st au := by
  rw [BTree.findLeaf]
  refine passes_read hn hr.held fun shown => passes_attempt_ok hr.header (passes_drop fun _ => ?_)
  rw [release_hold (hr.notMem_held _)]
  refine Passes.mono (passes_findLeafFrom hn BTree.maxTurns hr.holds hr.held) ?_
  intro _ st' au' hpost
  dsimp only at hpost
  exact ⟨hpost.1, by omega⟩

/-- **A lookup** asks for the header page and a page on each level. -/
theorem passes_find (hn : 1 ≤ n) (hr : st.Represents tree t records) :
    Passes n (fun _ st' au' => st' = st ∧ au'.requests = au.requests + (h + 2))
      (tree.find B key) st au := by
  rw [BTree.find]
  refine passes_bind (passes_findLeaf hn hr) fun leaf st' au' hpost => ?_
  cases leaf with
  | none => exact hpost
  | some leaf => exact passes_attempt_last fun _ _ => hpost

/-- `next` asks for the leaf it yields. -/
theorem passes_scanFrom (hn : 1 ≤ n) (hheld : st.held = ∅) : ∀ (turns : ℕ) {start : PageId}
    {au : Audit},
    Passes n (fun leaves st' au' => st' = st ∧ au'.requests = au.requests + leaves.length)
      (BTree.scanFrom turns start) st au
  | 0, _, _ => trivial
  | turns + 1, start, au => by
      rw [BTree.scanFrom, BTree.scanNext]
      split
      · exact ⟨rfl, rfl⟩
      · simp only [bind_assoc]
        refine passes_read hn hheld fun shown => passes_attempt fun leaf _ =>
          passes_drop fun _ => ?_
        rw [release_hold (by simp [hheld])]
        simp only [pure_bind]
        refine passes_bind (passes_scanFrom hn hheld turns) fun leaves st' au' hpost => ?_
        dsimp only at hpost
        refine Prog.ensures_pure ⟨hpost.1, ?_⟩
        show au'.requests = au.requests + (leaves.length + 1)
        omega

/-- **A scan** asks for the leaves it lists besides. -/
theorem passes_scanAll (hn : 1 ≤ n) (hr : st.Represents tree t records) :
    Passes n (fun leaves st' au' => st' = st ∧
        au'.requests = au.requests + (h + 2) + leaves.length)
      (tree.scanAll B key) st au := by
  rw [BTree.scanAll, BTree.scan]
  simp only [bind_assoc, pure_bind]
  refine passes_bind (passes_findLeaf hn hr) fun leaf st' au' hpost => ?_
  obtain ⟨rfl, hrequests⟩ := hpost
  refine passes_attempt fun leaf _ => ?_
  refine Passes.mono (passes_scanFrom hn hr.held BTree.maxTurns) fun leaves st'' au'' hpost => ?_
  exact ⟨hpost.1, by rw [hpost.2, hrequests]⟩

end Reads

/-! ### Inserts -/

section Insert

variable {n h : ℕ} {st : PlainStore I} {au : Audit} {t : PageTree h} {tree : BTree}
  {records : List LeafKv} {B : Build} {S : KeySort} {key : Key} {rid : RecordId}
  {stack : List PageId} {p : PageId}

/-- The guards held are on pages of the stack. -/
def HeldOn (st : PlainStore I) (stack : List PageId) : Prop := st.held ⊆ stack.toFinset

theorem HeldOn.card_le (hs : st.HeldOn stack) : st.held.card ≤ stack.length :=
  (Finset.card_le_card hs).trans stack.toFinset_card_le

theorem HeldOn.hold (hs : st.HeldOn stack) (p : PageId) : (st.hold p).HeldOn (p :: stack) := by
  rw [HeldOn, held_hold, List.toFinset_cons]
  exact Finset.insert_subset_insert p hs

theorem HeldOn.release (hs : st.HeldOn (p :: stack)) : (st.release p).HeldOn stack := by
  rw [HeldOn, held_release, ← Finset.subset_insert_iff, ← List.toFinset_cons]
  exact hs

theorem HeldOn.dropAll {above : List PageId} (hs : st.HeldOn (stack ++ above)) :
    HeldOn (I := I) { st with held := st.held \ above.reverse.toFinset } stack := by
  rw [HeldOn, List.toFinset_reverse]
  refine (Finset.sdiff_subset_sdiff hs le_rfl).trans ?_
  rw [List.toFinset_append, Finset.union_sdiff_right]
  exact Finset.sdiff_subset

/-- Bytes of a page rewritten under a guard that is dropped again. -/
theorem passes_rewrite {α : Type} {post : α → PlainStore I → Audit → Prop} {p : PageId}
    (edit : Page → Except Panic Page) {rest : PageProg α} (hs : st.HeldOn stack)
    (hroom : stack.length < n)
    (h : ∀ st' shown, st'.HeldOn stack → p ∉ st.held → au.shown \ {p} ⊆ shown →
      Passes n post rest st' ⟨au.requests + 1, shown⟩) :
    Passes n post (do
      PageProg.check .write p
      let bytes ← PageProg.dataMut p
      let bytes ← PageProg.attempt (edit bytes)
      PageProg.store p bytes
      PageProg.drop p
      rest) st au := by
  refine passes_check (hs.card_le.trans_lt hroom) fun _ hnot => passes_dataMut fun _ => ?_
  refine passes_attempt fun page _ => passes_store (Finset.mem_insert_self _ _) fun _ => ?_
  refine passes_drop fun _ => h _ _ ?_ hnot ?_
  · exact ((hs.hold p).release : ((st.hold p).release p).HeldOn stack)
  · rw [Finset.sdiff_singleton_eq_erase]
    exact Finset.erase_subset_erase p (Finset.subset_insert p au.shown)

theorem passes_writeHeader {α : Type} {post : α → PlainStore I → Audit → Prop}
    {f : Unit → PageProg α} (hs : st.HeldOn []) (hn : 1 ≤ n)
    (h : ∀ st' shown, st'.HeldOn [] → Passes n post (f ()) st' ⟨au.requests + 1, shown⟩) :
    Passes n post (tree.writeHeader >>= f) st au := by
  rw [BTree.writeHeader]
  simp only [bind_assoc]
  exact passes_rewrite (fun bytes => bytes.putU32 0 tree.rootPageId) hs hn
    fun st' shown hs' _ _ => h st' shown hs'

/-- A new root and the header page over it. -/
theorem passes_growRoot {kv : InternalKv} {left : PageId} (hs : st.HeldOn []) (hn : 1 ≤ n) :
    Passes n (fun _ _ au' => au'.requests = au.requests + 2) (tree.growRoot kv left) st au := by
  rw [BTree.growRoot]
  refine passes_newPage fun new rest hfresh => ?_
  refine passes_rewrite (InternalNode.encode ⟨[(invalidKey, left), kv]⟩)
    (show (st.alloc new).HeldOn [] from hs) hn fun st' shown hs' _ _ => ?_
  exact passes_writeHeader hs' hn fun st'' shown' _ => rfl

theorem passes_insertFirst (hs : st.HeldOn []) (hn : 1 ≤ n) :
    Passes n (fun _ _ au' => au'.requests = au.requests + 2) (tree.insertFirst key rid) st au := by
  rw [BTree.insertFirst]
  refine passes_newPage fun new rest hfresh => ?_
  refine passes_writeHeader (show (st.alloc new).HeldOn [] from hs) hn fun st' shown hs' => ?_
  exact passes_rewrite (LeafNode.encode ⟨invalidPageId, [(key, rid)]⟩) hs' hn
    fun st'' shown' _ _ _ => rfl

/-- The propagation asks for a page for each node that it splits, and for two
at the root. -/
theorem passes_propagate : ∀ (stack : List PageId) {kv : InternalKv} {left : PageId}
    {st : PlainStore I} {au : Audit}, st.HeldOn stack → stack.length < n →
    Passes n (fun _ _ au' => au'.requests ≤ au.requests + (stack.length + 2))
      (tree.propagate stack kv left) st au
  | [], kv, left, st, au, hs, hn => by
      rw [BTree.propagate]
      exact Passes.mono (passes_growRoot hs hn) fun _ _ au' hrequests => hrequests.le
  | p :: stack, kv, left, st, au, hs, hn => by
      rw [BTree.propagate]
      refine passes_dataMut fun hp => passes_attempt fun node _ => passes_attempt fun i _ => ?_
      dsimp only
      split
      · refine passes_attempt fun page _ => passes_store (Finset.mem_insert_self _ _) fun _ => ?_
        refine passes_drop fun _ => passes_dropAll fun shown => Prog.ensures_pure ?_
        exact Nat.le_add_right _ _
      · refine passes_attempt fun up _ => passes_newPage fun new rest hfresh => ?_
        refine passes_rewrite (InternalNode.encode ⟨_⟩)
          (show (st.alloc new).HeldOn (p :: stack) from hs) hn fun st' shown hs' hnew hshown => ?_
        have hne : p ≠ new := by
          rintro rfl
          exact hnew hp
        refine passes_attempt fun page _ => passes_store (hshown ?_) fun _ => ?_
        · exact Finset.mem_sdiff.mpr ⟨Finset.mem_insert_self _ _, by simpa using hne⟩
        refine passes_drop fun _ => ?_
        have hheld : ((st'.put p page).release p).HeldOn stack := hs'.release
        refine Passes.mono (passes_propagate stack hheld (Nat.lt_of_succ_lt hn))
          fun _ _ au' hrequests => ?_
        rw [List.length_cons]
        dsimp only at hrequests
        omega

theorem passes_splitLeaf {left : PageId} (hs : st.HeldOn stack) (hn : stack.length + 1 < n) :
    Passes n (fun _ st' au' => st'.HeldOn stack ∧ au'.requests = au.requests + 2)
      (BTree.splitLeaf S left key rid) st au := by
  rw [BTree.splitLeaf]
  refine passes_newPage fun new rest _ => ?_
  have hs₁ : (st.alloc new).HeldOn stack := hs
  refine passes_check (hs₁.card_le.trans_lt (by omega)) fun _ _ => ?_
  have hs₂ := hs₁.hold left
  refine passes_dataMut fun _ => passes_attempt fun leaf _ => ?_
  refine passes_attempt fun middle _ => ?_
  refine passes_check (hs₂.card_le.trans_lt hn) fun _ _ => ?_
  have hs₃ := hs₂.hold new
  refine passes_dataMut fun _ => passes_attempt fun rightBytes _ => ?_
  refine passes_store (Finset.mem_insert_self _ _) fun _ => passes_attempt fun leftBytes _ => ?_
  refine passes_store (Finset.mem_insert_of_mem (Finset.mem_insert_self _ _)) fun _ => ?_
  refine passes_drop fun _ => passes_drop fun _ => Prog.ensures_pure ⟨?_, rfl⟩
  have hs₄ : (((((st.alloc new).hold left).hold new).put new rightBytes).put left
    leftBytes).HeldOn (new :: left :: stack) := hs₃
  exact hs₄.release.release

theorem passes_insertIntoLeaf (hs : st.HeldOn stack) (hn : stack.length < n) :
    Passes n (fun _ _ au' => au'.requests ≤ au.requests + (stack.length + 3))
      (tree.insertIntoLeaf S key rid stack) st au := by
  cases stack with
  | nil => trivial
  | cons leaf stack =>
      rw [BTree.insertIntoLeaf]
      refine passes_dataMut fun _ => passes_attempt fun node _ => ?_
      dsimp only
      split
      · refine passes_drop fun _ => ?_
        refine passes_bind (passes_splitLeaf hs.release hn) fun kv st' au' hpost => ?_
        dsimp only at hpost
        refine Passes.mono (passes_propagate stack hpost.1 (Nat.lt_of_succ_lt hn))
          fun _ _ au'' hrequests => ?_
        rw [List.length_cons]
        omega
      · refine passes_attempt fun page _ => passes_store (Finset.mem_insert_self _ _) fun _ => ?_
        refine passes_drop fun _ => passes_dropAll fun shown => Prog.ensures_pure ?_
        exact Nat.le_add_right _ _

/-- The descent asks for a page twice, to read it and to write it. -/
theorem passes_descend : ∀ (turns : ℕ) {h : ℕ} {t : PageTree (h + 1)} {st : PlainStore I}
    {au : Audit} {stack : List PageId} {slot : ℕ}, st.Holds t → st.HeldOn stack →
    stack.length + (h + 1) ≤ n →
    Passes n (fun stack' st' au' => st'.HeldOn stack' ∧ stack'.length ≤ stack.length + (h + 1) ∧
        au'.requests ≤ au.requests + 2 * (h + 1))
      (tree.descend B key turns ⟨t.children.map fun e => (e.1, e.2.id)⟩ slot stack) st au
  | 0, _, _, _, _, _, _, _, _, _ => trivial
  | turns + 1, h, t, st, au, stack, slot, hh, hs, hn => by
      rw [BTree.descend]
      refine passes_attempt fun entry hentry => ?_
      obtain ⟨child, hid, hchild⟩ := hh.exists_child hentry
      dsimp only
      rw [hid]
      refine passes_check (hs.card_le.trans_lt (by omega)) fun _ hnot => passes_data fun _ => ?_
      have hback : (st.hold child.id).release child.id = st := release_hold hnot
      have hs' := hs.hold child.id
      cases h with
      | zero =>
          obtain ⟨htype, -⟩ := hchild.leaf
          refine passes_attempt_ok htype ?_
          simp only [leafNode_ne, if_false, if_true, pure_bind]
          refine passes_drop fun _ => ?_
          rw [hback]
          refine passes_check (hs.card_le.trans_lt (by omega)) fun _ _ => passes_dataMut fun _ => ?_
          refine passes_attempt fun node _ => ?_
          split
          · refine passes_dropAll fun shown => Prog.ensures_pure ⟨?_, ?_, ?_⟩
            · exact HeldOn.dropAll (show (st.hold child.id).HeldOn ([child.id] ++ stack) from hs')
            · exact Nat.le_add_left _ _
            · exact le_rfl
          · exact Prog.ensures_pure ⟨hs', le_rfl, le_rfl⟩
      | succ h =>
          obtain ⟨htype, hdecode⟩ := hchild.branch
          refine passes_attempt_ok htype ?_
          simp only [internalNode_ne, if_false, if_true, pure_bind]
          refine passes_attempt_ok hdecode (passes_attempt fun slot' _ => passes_drop fun _ => ?_)
          rw [hback]
          refine passes_check (hs.card_le.trans_lt (by omega)) fun _ _ => passes_dataMut fun _ => ?_
          refine passes_attempt fun node _ => ?_
          split
          · refine passes_dropAll fun shown => ?_
            have hs'' : HeldOn (I := I) { st.hold child.id with
                held := (st.hold child.id).held \ stack.reverse.toFinset } [child.id] :=
              HeldOn.dropAll (show (st.hold child.id).HeldOn ([child.id] ++ stack) from hs')
            refine Passes.mono (passes_descend turns hchild hs'' ?_) fun stack' st' au' hpost => ?_
            · rw [List.length_singleton]
              omega
            · rw [List.length_singleton] at hpost
              dsimp only at hpost
              exact ⟨hpost.1, by omega, by omega⟩
          · refine Passes.mono (passes_descend turns hchild hs' ?_) fun stack' st' au' hpost => ?_
            · rw [List.length_cons]
              omega
            · rw [List.length_cons] at hpost
              dsimp only at hpost
              exact ⟨hpost.1, by omega, by omega⟩

theorem passes_findPath (hr : st.Represents tree t records) (hn : h + 1 ≤ n) :
    Passes n (fun stack st' au' => st'.HeldOn stack ∧ stack.length ≤ h + 1 ∧
        au'.requests ≤ au.requests + (2 * h + 1))
      (tree.findPath B key) st au := by
  have hempty : st.HeldOn [] := hr.held.subset
  have hs := hempty.hold t.id
  rw [BTree.findPath, hr.root]
  refine passes_check (hempty.card_le.trans_lt (by simp only [List.length_nil]; omega))
    fun _ _ => passes_dataMut fun _ => ?_
  cases h with
  | zero =>
      obtain ⟨htype, -⟩ := hr.holds.leaf
      refine passes_attempt_ok htype ?_
      simp only [if_true]
      exact Prog.ensures_pure ⟨hs, le_rfl, le_rfl⟩
  | succ h =>
      obtain ⟨htype, hdecode⟩ := hr.holds.branch
      refine passes_attempt_ok htype ?_
      simp only [internalNode_ne, if_false, if_true]
      refine passes_data fun _ => passes_attempt_ok hdecode (passes_attempt fun slot _ => ?_)
      refine Passes.mono (passes_descend BTree.maxTurns (hr.holds.hold t.id) hs ?_)
        fun stack st' au' hpost => ?_
      · rw [List.length_singleton]
        omega
      · rw [List.length_singleton] at hpost
        dsimp only at hpost
        exact ⟨hpost.1, by omega, by omega⟩

/-- **An insert** asks for each page of its search path twice and for the
pages of its splits, and never holds more than two pages beside the ancestors
of the leaf. -/
theorem passes_insert (hr : st.Represents tree t records) (hn : h + 2 ≤ n) :
    Passes n (fun _ _ au' => au'.requests ≤ au.requests + (3 * h + 5))
      (tree.insert B S key rid) st au := by
  rw [BTree.insert, if_neg hr.root_ne_invalid]
  refine passes_bind (passes_findPath hr (Nat.le_of_succ_le hn)) fun stack st' au' hpost => ?_
  refine Passes.mono (passes_insertIntoLeaf hpost.1 (by omega)) fun _ _ au'' hrequests => ?_
  omega

end Insert

/-! ### Operations in turn -/

section Operations

variable {n h : ℕ} {st : PlainStore I} {au : Audit} {t : PageTree h} {tree : BTree}
  {records : List LeafKv} {B : Build} {S : KeySort}

/-- **One operation** asks for no more than three times as many pages as the
store has. -/
theorem passes_serve (op : IndexOp) (hb : st.Built tree t records) (hn : 1 ≤ n)
    (hlevels : Index.inserts [op] ≠ 0 → h + 2 ≤ n) :
    Passes n (fun _ _ au' => au'.requests ≤ au.requests + 3 * I.ids.length)
      (tree.serve B S op) st au := by
  have hr := hb.toRepresents
  have hheight := hr.wellFormed.searchable.separated.lt_length_ids
  have hids := hr.length_ids
  cases op with
  | insert key rid =>
      refine passes_bind (passes_insert hr (hlevels Nat.one_ne_zero)) fun tree' st' au' hpost =>
        Prog.ensures_pure ?_
      show au'.requests ≤ au.requests + 3 * I.ids.length
      omega
  | find key =>
      refine passes_bind (passes_find hn hr) fun o st' au' hpost =>
        Prog.ensures_pure ?_
      show au'.requests ≤ au.requests + 3 * I.ids.length
      omega
  | scan key =>
      obtain ⟨before, l, after, hrun, hleaves, -⟩ := exec_scanAll B key hr
      refine Passes.bind_of_exec (passes_scanAll hn hr) hrun fun au' hpost =>
        Prog.ensures_pure ?_
      have hlen := congrArg List.length hleaves
      have hsub := t.leaf_ids_sublist.length_le
      rw [List.length_append] at hlen
      rw [List.length_map] at hsub
      have hlisted := hpost.2
      rw [List.length_map] at hlisted
      show au'.requests ≤ au.requests + 3 * I.ids.length
      omega

/-- Operations in turn. Only inserts need room for more than one guard. -/
theorem passes_serveAll (hn : 1 ≤ n) (ops : List IndexOp) :
    ∀ {tree : BTree} {st : PlainStore I} {h : ℕ} {t : PageTree h} {records : List LeafKv}
      {au : Audit}, st.Built tree t records →
      I.Suffices tree.leafNodeMaxSize tree.internalNodeMaxSize
        (records.length + Index.inserts ops) →
      (Index.inserts ops ≠ 0 → I.Shallow tree.leafNodeMaxSize tree.internalNodeMaxSize
        (records.length + Index.inserts ops) n) →
      Passes n (fun _ _ au' => au'.requests ≤ au.requests + ops.length * (3 * I.ids.length))
        (tree.serveAll B S ops) st au := by
  induction ops with
  | nil =>
      intro tree st h t records au _ _ _
      exact Prog.ensures_pure (Nat.le_add_right _ _)
  | cons op ops ih =>
      intro tree st h t records au hb hs hshallow
      rw [Index.inserts_cons, ← Nat.add_assoc] at hs hshallow
      obtain ⟨tree₁, reply, st₁, h₁, t₁, records₁, hrun, hleaf, hinternal, hb₁, hafter, -⟩ :=
        exec_serve (B := B) (S := S) op hb (hs.mono (Nat.le_add_right _ _))
      have hlevels : Index.inserts [op] ≠ 0 → h + 2 ≤ n := by
        intro hop
        have hids := hb.toRepresents.length_ids
        have hlen := hb.toRepresents.entries.length_eq
        have hheight := hb.height
        exact hshallow (by omega) h t hb.toRepresents.wellFormed (by omega) (by omega) (by omega)
      have hshallow₁ : Index.inserts ops ≠ 0 → _ := fun hops => hshallow (by omega)
      rw [← length_after hafter, ← hleaf, ← hinternal] at hs hshallow₁
      rw [BTree.serveAll]
      refine Passes.bind_of_exec (passes_serve op hb hn hlevels) hrun fun au₁ hfirst => ?_
      refine passes_bind (ih hb₁ hs hshallow₁) fun replies st' au' hrest => Prog.ensures_pure ?_
      show au'.requests ≤ au.requests + (ops.length + 1) * (3 * I.ids.length)
      rw [Nat.succ_mul]
      omega

/-- **The life of a tree**, from the first insert on. -/
theorem passes_life {L M : ℕ} (hL : 1 ≤ L ∧ L ≤ 511) (hM : 2 ≤ M ∧ M ≤ 681) (key : Key)
    (rid : RecordId) (ops : List IndexOp) (hs : I.Suffices L M (Index.inserts ops + 1))
    (hshallow : I.Shallow L M (Index.inserts ops + 1) n) (hn : 1 ≤ n) :
    Passes n (fun _ _ au' => au'.requests ≤ au.requests + 2 + ops.length * (3 * I.ids.length))
      (BTree.life B S L M key rid ops) (.new I) au := by
  obtain ⟨tree, st, t, hrun, hleaf, hinternal, hb⟩ :=
    (exec_new_insert B S hL hM key rid pure).resolve_left
      fun hfew => hfew.2 (hs.mono (Nat.le_add_left 1 _))
  rw [Nat.add_comm, ← hleaf, ← hinternal] at hs hshallow
  have hfirst : Passes n (fun _ _ au' => au'.requests = au.requests + 2)
      (do
        let tree ← BTree.new L M
        let tree ← tree.insert B S key rid
        pure tree) (.new I) au := by
    refine passes_newPage fun header rest _ => ?_
    show Passes n _ (BTree.insert B S ⟨header, invalidPageId, L, M⟩ key rid >>= pure) _ au
    rw [bind_pure, BTree.insert, if_pos rfl]
    exact passes_insertFirst (Finset.Subset.refl _) hn
  have hlife : BTree.life B S L M key rid ops = (do
      let tree ← BTree.new L M
      let tree ← tree.insert B S key rid
      pure tree) >>= fun tree => tree.serveAll B S ops := by
    simp only [BTree.life, bind_assoc]
  rw [hlife]
  refine Passes.bind_of_exec hfirst (hrun.trans rfl) fun au₁ hcost => ?_
  refine Passes.mono (passes_serveAll hn ops hb hs fun _ => hshallow) fun _ _ au' hrest => ?_
  rw [hcost] at hrest
  exact hrest

theorem Passes.fits {α : Type} {post : α → PlainStore I → Audit → Prop} {p : PageProg α}
    (h : Passes n post p st au) : p.Along step (Fits n) st :=
  Prog.Along.of_audited ((Prog.ensures_iff.mp h).1.mono fun _ _ _ hsound => hsound.fits)

theorem Passes.exists_run {α : Type} {post : α → PlainStore I → Audit → Prop} {p : PageProg α}
    {a : α} {st' : PlainStore I} (h : Passes n post p st au) (hrun : exec p st = .ok (a, st')) :
    ∃ au', p.run (Prog.audited step Audit.log) (st, au) = .ok (a, st', au') ∧ post a st' au' := by
  obtain ⟨au', hrun'⟩ := Prog.run_audited Audit.log au hrun
  exact ⟨au', hrun', (Prog.ensures_iff.mp h).2 a (st', au') hrun'⟩

/-- The number of requests never falls. -/
theorem requests_le (β : Type) (c : PageCmd β) (x : PlainStore I × Audit) (b : β)
    (x' : PlainStore I × Audit) (h : Prog.audited step Audit.log β c x = .ok (b, x')) :
    x.2.requests ≤ x'.2.requests := by
  rw [(Prog.audited_eq_ok.mp h).2]
  cases c with
  | check kind p => exact Nat.le_succ _
  | newPage => exact le_rfl
  | data p => exact le_rfl
  | dataMut p => exact le_rfl
  | store p page => exact le_rfl
  | drop p => exact le_rfl

/-- A sound run never counts more requests than at its end. -/
theorem Passes.along {α : Type} {post : α → PlainStore I → Audit → Prop} {p : PageProg α}
    {a : α} {x : PlainStore I × Audit} (h : Passes n post p st au)
    (haudit : p.run (Prog.audited step Audit.log) (st, au) = .ok (a, x)) :
    p.Along (Prog.audited step Audit.log)
      (fun β c x₁ => Sound n β c x₁ ∧ x₁.2.requests ≤ x.2.requests) (st, au) :=
  (Prog.ensures_iff.mp h).1.and
    (Prog.along_le (fun β c x b x' hx => requests_le β c x b x' hx) haudit).2

/-- The life of a tree with its audit. -/
theorem audited_life {L M : ℕ} (hL : 1 ≤ L ∧ L ≤ 511) (hM : 2 ≤ M ∧ M ≤ 681) (key : Key)
    (rid : RecordId) (ops : List IndexOp) (hs : I.Suffices L M (Index.inserts ops + 1))
    (hshallow : I.Shallow L M (Index.inserts ops + 1) n) (hn : 1 ≤ n) :
    ∃ (tree : BTree) (replies : List IndexReply) (st : PlainStore I) (au : Audit) (h : ℕ)
      (t : PageTree h) (records : List LeafKv),
      (BTree.life B S L M key rid ops).run (Prog.audited step Audit.log) (.new I, .new) =
        .ok ((tree, replies), st, au) ∧
      (BTree.life B S L M key rid ops).Along (Prog.audited step Audit.log)
        (fun β c x => Sound n β c x ∧ x.2.requests ≤ au.requests) (.new I, .new) ∧
      au.requests ≤ 2 + ops.length * (3 * I.ids.length) ∧ st.Built tree t records ∧
      (records : Index _ _) = ops.foldl Index.after {(key, rid)} ∧
      Index.Answers {(key, rid)} ops replies := by
  have hpasses : Passes n _ _ _ Audit.new :=
    passes_life (B := B) (S := S) hL hM key rid ops hs hshallow hn
  obtain ⟨tree, replies, st, h, t, records, hrun, -, -, hb, hall, hanswers⟩ :=
    exec_life (B := B) (S := S) hL hM key rid ops hs
  obtain ⟨au, haudit, hrequests⟩ := hpasses.exists_run hrun
  rw [show Audit.new.requests = 0 from rfl, Nat.zero_add] at hrequests
  exact ⟨tree, replies, st, au, h, t, records, haudit, hpasses.along haudit, hrequests, hb, hall,
    hanswers⟩

/-- **What an operation costs**, on every tree that inserts, lookups and scans
left: the guards it holds at once, and the pages it asks for. -/
theorem costs_life (I : IdSupply) (B : Build) (S : KeySort) {L M : ℕ} (hL : 1 ≤ L ∧ L ≤ 511)
    (hM : 2 ≤ M ∧ M ≤ 681) (key : Key) (rid : RecordId) (ops : List IndexOp)
    (hids : 3 ≤ M ∧ 2 * max 1 ((Index.inserts ops + 1) / ((L + 1) / 2)) ≤ I.ids.length ∨
      (Index.inserts ops + 1) ^ 2 < I.ids.length) :
    ∃ (tree : BTree) (replies : List IndexReply) (st : PlainStore I) (h : ℕ) (t : PageTree h),
      exec (BTree.life B S L M key rid ops) (.new I) = .ok ((tree, replies), st) ∧
      t.id = tree.rootPageId ∧ st.Holds t ∧
      (∀ key, (tree.find B key).Along step (Fits 1) st ∧ ∃ o au,
        (tree.find B key).run (Prog.audited step Audit.log) (st, .new) = .ok (o, st, au) ∧
        au.requests = h + 2) ∧
      (∀ key, (tree.scanAll B key).Along step (Fits 1) st ∧ ∃ leaves au,
        (tree.scanAll B key).run (Prog.audited step Audit.log) (st, .new) =
          .ok (leaves, st, au) ∧
        au.requests = h + 2 + leaves.length ∧ leaves.length ≤ t.leaves.length) ∧
      ∀ key rid, (tree.insert B S key rid).Along step (Fits (h + 2)) st ∧
        ∀ tree' st' au, (tree.insert B S key rid).run (Prog.audited step Audit.log) (st, .new) =
          .ok (tree', st', au) → au.requests ≤ 3 * h + 5 := by
  obtain ⟨tree, replies, st, h, t, records, hrun, -, -, hb, -⟩ :=
    exec_life (B := B) (S := S) hL hM key rid ops (IdSupply.suffices_of_either hL.1 hids)
  have hr := hb.toRepresents
  refine ⟨tree, replies, st, h, t, hrun, hr.root.symm, hr.holds, fun key => ?_, fun key => ?_,
    fun key rid => ?_⟩
  · have hpasses : Passes 1 _ (tree.find B key) _ Audit.new := passes_find le_rfl hr
    obtain ⟨o, hfind, -⟩ := exec_find B key hr
    obtain ⟨au, haudit, -, hrequests⟩ := hpasses.exists_run hfind
    exact ⟨hpasses.fits, o, au, haudit, hrequests.trans (Nat.zero_add _)⟩
  · have hpasses : Passes 1 _ (tree.scanAll B key) _ Audit.new := passes_scanAll le_rfl hr
    obtain ⟨before, l, after, hscan, hleaves, -⟩ := exec_scanAll B key hr
    obtain ⟨au, haudit, -, hrequests⟩ := hpasses.exists_run hscan
    refine ⟨hpasses.fits, _, au, haudit, ?_, ?_⟩
    · rw [hrequests]
      simp only [Audit.new, Nat.zero_add]
    · rw [List.length_map, hleaves, List.length_append]
      exact Nat.le_add_left _ _
  · have hpasses : Passes (h + 2) _ (tree.insert B S key rid) _ Audit.new :=
      passes_insert hr le_rfl
    refine ⟨hpasses.fits, fun tree' st' au haudit => ?_⟩
    exact ((Prog.ensures_iff.mp hpasses).2 tree' (st', au) haudit).trans (Nat.zero_add _).le

theorem costs_life_scan :
    ∃ (tree : BTree) (replies : List IndexReply) (st : PlainStore (.counting 4 (by decide)))
        (h : ℕ) (t : PageTree h),
      exec (BTree.life ⟨true⟩ .insertion 1 3 5 ⟨1, 0⟩ [.insert 7 ⟨1, 1⟩, .scan 5]) (.new _) =
        .ok ((tree, replies), st) ∧
      t.id = tree.rootPageId ∧ st.Holds t ∧
      (∀ key, (tree.find ⟨true⟩ key).Along step (Fits 1) st ∧ ∃ o au,
        (tree.find ⟨true⟩ key).run (Prog.audited step Audit.log) (st, .new) = .ok (o, st, au) ∧
        au.requests = h + 2) ∧
      (∀ key, (tree.scanAll ⟨true⟩ key).Along step (Fits 1) st ∧ ∃ leaves au,
        (tree.scanAll ⟨true⟩ key).run (Prog.audited step Audit.log) (st, .new) =
          .ok (leaves, st, au) ∧
        au.requests = h + 2 + leaves.length ∧ leaves.length ≤ t.leaves.length) ∧
      ∀ key rid, (tree.insert ⟨true⟩ .insertion key rid).Along step (Fits (h + 2)) st ∧
        ∀ tree' st' au,
          (tree.insert ⟨true⟩ .insertion key rid).run (Prog.audited step Audit.log) (st, .new) =
            .ok (tree', st', au) → au.requests ≤ 3 * h + 5 :=
  costs_life (.counting 4 (by decide)) ⟨true⟩ .insertion (by decide) (by decide) 5 ⟨1, 0⟩ _
    (by decide)

/-- **One guard more than levels**, at the most, and no more than three requests
a page for each operation. There are no more levels than records, and with
branches of three children or more only a logarithm of the records or the ids. -/
theorem pins_life (I : IdSupply) (B : Build) (S : KeySort) {L M H n : ℕ} (hL : 1 ≤ L ∧ L ≤ 511)
    (hM : 2 ≤ M ∧ M ≤ 681) (key : Key) (rid : RecordId) (ops : List IndexOp)
    (hids : 3 ≤ M ∧ 2 * max 1 ((Index.inserts ops + 1) / ((L + 1) / 2)) ≤ I.ids.length ∨
      (Index.inserts ops + 1) ^ 2 < I.ids.length)
    (hlevels : Index.inserts ops + 1 < n ∨ H + 2 ≤ n ∧
      (Index.inserts ops + 1 < 2 * (((M + 1) / 2) ^ H * ((L + 1) / 2)) ∨
        I.ids.length ≤ 2 * ((M + 1) / 2) ^ H)) :
    (BTree.life B S L M key rid ops).Along step (Fits n) (.new I) ∧
    ∃ (tree : BTree) (replies : List IndexReply) (st : PlainStore I) (au : Audit),
      (BTree.life B S L M key rid ops).run (Prog.audited step Audit.log) (.new I, .new) =
        .ok ((tree, replies), st, au) ∧
      au.requests ≤ 2 + ops.length * (3 * I.ids.length) := by
  have hs : I.Suffices L M (Index.inserts ops + 1) := IdSupply.suffices_of_either hL.1 hids
  have hshallow : I.Shallow L M (Index.inserts ops + 1) n :=
    IdSupply.shallow_of_either (by omega) hlevels
  have hn : 1 ≤ n := by omega
  obtain ⟨tree, replies, st, au, h, t, records, haudit, -, hrequests, -⟩ :=
    audited_life (B := B) (S := S) hL hM key rid ops hs hshallow hn
  have hpasses : Passes n _ _ _ Audit.new :=
    passes_life (B := B) (S := S) hL hM key rid ops hs hshallow hn
  exact ⟨hpasses.fits, tree, replies, st, au, haudit, hrequests⟩

/-- With a first insert of key 4, leaves of one record and two children a
branch, the second and the third of these inserts split branches. -/
def branchingOps : List IndexOp :=
  [.insert 1 ⟨0, 1⟩, .insert 2 ⟨0, 2⟩, .insert 3 ⟨0, 3⟩, .scan 3]

theorem pins_life_branching :
    (BTree.life ⟨true⟩ .insertion 1 2 4 ⟨0, 4⟩ branchingOps).Along step (Fits 5)
      (.new (.counting 17 (by decide))) ∧
    ∃ (tree : BTree) (replies : List IndexReply) (st : PlainStore (.counting 17 (by decide)))
        (au : Audit),
      (BTree.life ⟨true⟩ .insertion 1 2 4 ⟨0, 4⟩ branchingOps).run
        (Prog.audited step Audit.log) (.new _, .new) = .ok ((tree, replies), st, au) ∧
      au.requests ≤ 2 + 4 * (3 * 17) :=
  pins_life (.counting 17 (by decide)) ⟨true⟩ .insertion (H := 0) (by decide) (by decide) 4 ⟨0, 4⟩
    branchingOps (by decide) (Or.inl (by decide))

end Operations

end PlainStore

end StorageEngine
