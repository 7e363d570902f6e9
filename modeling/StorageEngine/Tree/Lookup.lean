import StorageEngine.Tree.Scan

/-!
Lookups in a tree that may be empty.

The header of a new tree is a page of zeros, which `find_leaf` takes for the
page id 0 of the root. It either finds no such page, or a page of zeros,
which is an internal node without entries: `find_child_index` then subtracts
1 from 0. From the first insert on the header names a root.
-/

namespace StorageEngine

open Lib Lib.BPlus

namespace PlainStore

variable {I : IdSupply} {st : PlainStore I} {α : Type}

/-- `find` and `scan` complete, with nothing if the tree has no record. -/
def LookupsSafe (B : Build) (st : PlainStore I) (tree : BTree) (records : List LeafKv)
    (key : Key) : Prop :=
  ∃ found leaves st₁ st₂, exec (tree.find B key) st = .ok (found, st₁) ∧
    exec (tree.scanAll B key) st = .ok (leaves, st₂) ∧
    (records = [] → found = none ∧ leaves = [])

/-! ### Commands that fail -/

theorem exec_check_unissued {kind : GuardKind} {p : PageId} {f : Unit → PageProg α}
    (hp : p ∉ st.issued) : exec (PageProg.check kind p >>= f) st = .error .misuse :=
  Prog.run_call_bind_error (by simp only [step, hp, false_and, if_false])

theorem exec_attempt_error {β : Type} {x : Except Panic β} {e : Panic} {f : β → PageProg α}
    (h : x = .error e) : exec (PageProg.attempt x >>= f) st = .error (.panic e) := by
  subst h
  rfl

/-! ### The empty tree -/

theorem getU32_zero : (Bytes.zero pageSize : Page).getU32 0 = .ok 0 := by decide +kernel

theorem get_zero : (Bytes.zero pageSize : Page).get 0 = .ok internalNode := by decide +kernel

theorem decode_zero : InternalNode.decode (Bytes.zero pageSize : Page) = .ok ⟨[]⟩ := by
  decide +kernel

/-- A descent from a page of zeros goes nowhere. -/
theorem exec_findLeafFrom_zero (B : Build) (key : Key) (turns : ℕ) {p : PageId}
    (hzero : st.content p = .zero pageSize) (hheld : p ∉ st.held)
    (f : Option (LeafNode × PageId) → PageProg α) :
    ∃ e, exec (BTree.findLeafFrom B key turns p >>= f) st = .error e := by
  cases turns with
  | zero => exact ⟨_, rfl⟩
  | succ turns =>
  rw [BTree.findLeafFrom]
  simp only [bind_assoc]
  by_cases hp : p ∈ st.issued
  · have hmem : p ∈ (st.hold p).held := Finset.mem_insert_self _ _
    rw [exec_check hp hheld, exec_data hmem, content_hold, hzero, exec_attempt get_zero]
    simp only [internalNode_ne, if_false, if_true, bind_assoc]
    rw [exec_attempt decode_zero]
    cases hslot : InternalNode.findChildIndex B ⟨[]⟩ key with
    | error e => exact ⟨_, exec_attempt_error rfl⟩
    | ok slot =>
        -- without overflow checks `low - 1` wraps, and is no index
        rw [exec_attempt rfl]
        exact ⟨_, exec_attempt_error (e := .index) (by simp [orPanic])⟩
  · exact ⟨_, exec_check_unissued hp⟩

theorem exec_findLeaf_new (B : Build) (key : Key) {tree : BTree}
    (hheader : tree.headerPageId ∈ st.issued) (hheld : st.held = ∅)
    (hzero : ∀ p, st.content p = .zero pageSize) (f : Option (LeafNode × PageId) → PageProg α) :
    ∃ e, exec (tree.findLeaf B key >>= f) st = .error e := by
  have hfree : ∀ p, p ∉ st.held := fun p => by simp [hheld]
  have hmem : tree.headerPageId ∈ (st.hold tree.headerPageId).held := Finset.mem_insert_self _ _
  rw [BTree.findLeaf]
  simp only [bind_assoc]
  rw [exec_check hheader (hfree _), exec_data hmem, content_hold, hzero, exec_attempt getU32_zero,
    exec_drop hmem, release_hold (hfree _)]
  exact exec_findLeafFrom_zero B key BTree.maxTurns (hzero 0) (hfree 0) f

/-- A tree without records, in a store that has handed out its header. -/
theorem exec_build_nil (I : IdSupply) (B : Build) (S : KeySort) (L M : ℕ) :
    (exec (BTree.build B S L M []) (.new I) = .error .outOfIds ∧ I.ids = []) ∨
    ∃ (tree : BTree) (st : PlainStore I),
      exec (BTree.build B S L M []) (.new I) = .ok (tree, st) ∧
      tree.headerPageId ∈ st.issued ∧ st.held = ∅ ∧ ∀ p, st.content p = .zero pageSize := by
  have hids : (PlainStore.new I).fresh = I.ids := rfl
  rw [BTree.build, BTree.new]
  simp only [bind_assoc, pure_bind, BTree.insertAll]
  cases hheader : I.ids with
  | nil => exact Or.inl ⟨exec_newPage_nil (hids.trans hheader), rfl⟩
  | cons header rest =>
      have hfresh : (PlainStore.new I).fresh = header :: rest := hids.trans hheader
      rw [exec_newPage hfresh]
      refine Or.inr ⟨_, _, rfl, (mem_issued_alloc hfresh).mpr (Or.inl rfl), rfl, fun p => ?_⟩
      rw [content_alloc, Function.update_apply]
      split
      · rfl
      · rfl

/-- **Lookups are safe from the first insert on**, and only from then on. -/
theorem lookupsSafe_build_iff (I : IdSupply) (B : Build) (S : KeySort) {L M : ℕ}
    (hL : 1 ≤ L ∧ L ≤ 511) (hM : 2 ≤ M ∧ M ≤ 681) (records : List LeafKv) :
    (exec (BTree.build B S L M records) (.new I) = .error .outOfIds ∧
      (I.ids = [] ∨ ¬I.Suffices L M records.length)) ∨
    ∃ (tree : BTree) (st : PlainStore I),
      exec (BTree.build B S L M records) (.new I) = .ok (tree, st) ∧
      ∀ key, LookupsSafe B st tree records key ↔ records ≠ [] := by
  by_cases hne : records = []
  · subst records
    rcases exec_build_nil I B S L M with ⟨herror, hids⟩ | ⟨tree, st, hrun, hheader, hheld, hzero⟩
    · exact Or.inl ⟨herror, Or.inl hids⟩
    · refine Or.inr ⟨tree, st, hrun, fun key => ?_⟩
      simp only [ne_eq, not_true_eq_false, iff_false]
      rintro ⟨found, leaves, st₁, st₂, hfind, -⟩
      obtain ⟨e, herror⟩ := exec_findLeaf_new B key hheader hheld hzero _
      exact absurd (herror.symm.trans hfind) (by simp)
  · rcases exec_build I B S hL hM hne with
      ⟨herror, hfew⟩ | ⟨tree, st, h, t, hrun, -, -, hb⟩
    · exact Or.inl ⟨herror, Or.inr hfew⟩
    · have hr := hb.toRepresents
      refine Or.inr ⟨tree, st, hrun, fun key => iff_of_true ?_ hne⟩
      obtain ⟨found, hfind, -⟩ := exec_find B key hr
      obtain ⟨before, l, after, hscan, -⟩ := exec_scanAll B key hr
      exact ⟨found, _, st, st, hfind, hscan, fun hnil => absurd hnil hne⟩

theorem lookupsSafe_build_iff_one :
    ∃ (tree : BTree) (st : PlainStore (.counting 10 (by decide))),
      exec (BTree.build ⟨true⟩ .insertion 2 2 [(5, ⟨1, 1⟩)]) (.new _) = .ok (tree, st) ∧
      ∀ key, LookupsSafe ⟨true⟩ st tree [(5, ⟨1, 1⟩)] key ↔
        ([(5, ⟨1, 1⟩)] : List LeafKv) ≠ [] :=
  (lookupsSafe_build_iff (.counting 10 (by decide)) ⟨true⟩ .insertion (L := 2) (M := 2)
    (by decide) (by decide) [(5, ⟨1, 1⟩)]).resolve_left fun h =>
      h.2.elim (by simp [IdSupply.counting])
        fun hfew => hfew (IdSupply.suffices_of_square (by decide))

/-- In a new tree `find` panics. -/
theorem emptyTree_find_panics :
    ∃ (tree : BTree) (st : PlainStore (.counting 10 (by decide))),
      exec (BTree.build ⟨true⟩ .insertion 2 2 []) (.new _) = .ok (tree, st) ∧
      ¬LookupsSafe ⟨true⟩ st tree [] 5 := by
  have hrun : errorOf (exec (BTree.build ⟨true⟩ .insertion 2 2 [] >>=
      fun tree => tree.find ⟨true⟩ 5) (.new (.counting 10 (by decide)))) =
        some (.panic .overflow) := by
    decide +kernel
  refine ⟨⟨0, invalidPageId, 2, 2⟩, (PlainStore.new _).alloc 0, rfl, ?_⟩
  rintro ⟨found, leaves, st₁, st₂, hfind, -⟩
  have herror := errorOf_eq_some.mp hrun
  rw [show exec (BTree.build ⟨true⟩ .insertion 2 2 [] >>= fun tree => tree.find ⟨true⟩ 5)
    (.new (.counting 10 (by decide))) = exec (BTree.find ⟨true⟩ ⟨0, invalidPageId, 2, 2⟩ 5)
      ((PlainStore.new _).alloc 0) from rfl, hfind] at herror
  simp at herror

end PlainStore

end StorageEngine
