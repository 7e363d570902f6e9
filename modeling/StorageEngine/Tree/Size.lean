import StorageEngine.Tree.Build

/-!
How many levels and how many pages the tree has.
-/

namespace StorageEngine

open Lib Lib.BPlus

namespace PlainStore

/-- **The size of a tree built by inserts.** They complete when there are two
page ids for each leaf they half fill, or more than the square of their number
in all. Every page is used, there are no more than two for each leaf, the
leaves but a single one are half full, and the height is logarithmic in the
number of records. -/
theorem size_build (I : IdSupply) (B : Build) (S : KeySort) {L M : ℕ} (hL : 1 ≤ L ∧ L ≤ 511)
    (hM : 2 ≤ M ∧ M ≤ 681) {records : List LeafKv} (hne : records ≠ [])
    (hids : 3 ≤ M ∧ 2 * max 1 (records.length / ((L + 1) / 2)) ≤ I.ids.length ∨
      records.length ^ 2 < I.ids.length) :
    ∃ (tree : BTree) (st : PlainStore I) (h : ℕ) (t : PageTree h),
      exec (BTree.build B S L M records) (.new I) = .ok (tree, st) ∧
      t.id = tree.rootPageId ∧ st.Holds t ∧ t.entries.Perm records ∧
      st.issued.Perm (tree.headerPageId :: t.ids) ∧
      (3 ≤ M → st.issued.length ≤ 2 * t.leaves.length) ∧
      (h ≠ 0 → (L + 1) / 2 * t.leaves.length ≤ records.length) ∧
      (h ≠ 0 → 2 * (((M + 1) / 2) ^ (h - 1) * ((L + 1) / 2)) ≤ records.length) := by
  have hs : I.Suffices L M records.length := IdSupply.suffices_of_either hL.1 hids
  obtain ⟨tree, st, h, t, hrun, hleaf, hinternal, hr⟩ :=
    (exec_build I B S hL hM hne).resolve_left fun hfew => hfew.2 hs
  have hwf := hr.wellFormed
  rw [hleaf, hinternal] at hwf
  have hlen : t.entries.length = records.length := hr.entries.length_eq
  refine ⟨tree, st, h, t, hrun, hr.root.symm, hr.holds, hr.entries, hr.ids, ?_, ?_, ?_⟩
  · intro hM'
    have hnodes := hwf.filled.length_ids_lt hM' hwf.branched
    rw [hr.ids.length_eq, List.length_cons]
    omega
  · intro hne
    rw [← hlen]
    exact hwf.filled.leaves_mul_le (Or.inl hne)
  · intro hne
    rw [← hlen]
    obtain ⟨n, rfl⟩ := Nat.exists_eq_succ_of_ne_zero hne
    exact Tree.Filled.pow_le_length (hwf.branched hne) hwf.filled

theorem size_build_four :
    ∃ (tree : BTree) (st : PlainStore (.counting 8 (by decide))) (h : ℕ) (t : PageTree h),
      exec (BTree.build ⟨true⟩ .insertion 2 3 [(5, ⟨1, 1⟩), (7, ⟨1, 2⟩), (6, ⟨2, 0⟩), (5, ⟨0, 0⟩)])
        (.new _) = .ok (tree, st) ∧
      t.id = tree.rootPageId ∧ st.Holds t ∧
      t.entries.Perm [(5, ⟨1, 1⟩), (7, ⟨1, 2⟩), (6, ⟨2, 0⟩), (5, ⟨0, 0⟩)] ∧
      st.issued.Perm (tree.headerPageId :: t.ids) ∧
      (3 ≤ 3 → st.issued.length ≤ 2 * t.leaves.length) ∧
      (h ≠ 0 → (2 + 1) / 2 * t.leaves.length ≤ 4) ∧
      (h ≠ 0 → 2 * (((3 + 1) / 2) ^ (h - 1) * ((2 + 1) / 2)) ≤ 4) :=
  size_build (.counting 8 (by decide)) ⟨true⟩ .insertion (by decide) (by decide)
    (List.cons_ne_nil _ _) (by decide)

end PlainStore

end StorageEngine
