import StorageEngine.Lib.BPlusSize
import StorageEngine.Tree.Search

/-!
How many page ids the inserts of a tree need, and how high it can become.

An insert ends for want of ids only where the tree it would have built has
more pages than the store has ids. Bounds on well-formed trees therefore say
which stores are large enough, and how many levels a lookup goes down.
-/

namespace StorageEngine

open Lib Lib.BPlus

/-- There are as many ids as any tree of at most `n` records has pages, and
one more for the header. A tree that was built is less high than there are
records. -/
def IdSupply.Suffices (I : IdSupply) (L M n : ℕ) : Prop :=
  ∀ (h : ℕ) (t : PageTree h), t.WellFormed L M invalidPageId → t.entries.length ≤ n → h < n →
    t.ids.length < I.ids.length

/-- A tree of at most `r` records, all of whose pages have an id, has fewer
than `n` levels. -/
def IdSupply.Shallow (I : IdSupply) (L M r n : ℕ) : Prop :=
  ∀ (h : ℕ) (t : PageTree h), t.WellFormed L M invalidPageId → t.entries.length ≤ r → h < r →
    t.ids.length < I.ids.length → h + 2 ≤ n

namespace IdSupply

variable {I : IdSupply} {L M n r : ℕ}

theorem Suffices.mono {m : ℕ} (hs : I.Suffices L M n) (hle : m ≤ n) : I.Suffices L M m :=
  fun h t hwf hlen hlt => hs h t hwf (hlen.trans hle) (hlt.trans_le hle)

/-- With branches of at least two children there are fewer than two pages for
each leaf, and the leaves are half full. -/
theorem suffices_of_leaves (hL : 1 ≤ L) (hM : 3 ≤ M)
    (hids : 2 * max 1 (n / ((L + 1) / 2)) ≤ I.ids.length) : I.Suffices L M n := by
  intro h t hwf hlen hlt
  have hnodes := hwf.filled.length_ids_lt hM hwf.branched
  have hleaves : t.leaves.length ≤ max 1 (n / ((L + 1) / 2)) := by
    by_cases hzero : h = 0
    · subst hzero
      exact le_max_left _ _
    · have hfull := hwf.filled.leaves_mul_le (Or.inl hzero)
      refine le_max_of_le_right ?_
      rw [Nat.le_div_iff_mul_le (by omega), Nat.mul_comm]
      exact hfull.trans hlen
  omega

theorem suffices_of_square (hids : n ^ 2 < I.ids.length) : I.Suffices L M n := by
  intro h t hwf hlen hlt
  have hsep := hwf.searchable.separated
  calc t.ids.length ≤ (h + 1) * t.leaves.length := hsep.length_ids_le
    _ ≤ n * n := Nat.mul_le_mul hlt (hsep.length_leaves_le.trans hlen)
    _ = n ^ 2 := (sq n).symm
    _ < I.ids.length := hids

theorem suffices_of_either (hL : 1 ≤ L)
    (hids : 3 ≤ M ∧ 2 * max 1 (n / ((L + 1) / 2)) ≤ I.ids.length ∨ n ^ 2 < I.ids.length) :
    I.Suffices L M n := by
  rcases hids with ⟨hM, hids⟩ | hids
  · exact suffices_of_leaves hL hM hids
  · exact suffices_of_square hids

/-- The tree of one leaf needs an id, and so does the header. -/
theorem Suffices.two_le (hs : I.Suffices L M n) (hL : 1 ≤ L) (hn : 1 ≤ n) :
    2 ≤ I.ids.length := by
  refine hs 0 (Tree.leaf 0 invalidPageId [(0, ⟨0, 0⟩)])
    ⟨⟨?_, ?_⟩, hL, trivial, ?_, 0, rfl, rfl⟩ hn hn
  · exact List.pairwise_singleton _ _
  · exact List.cons_ne_nil _ _
  · exact fun hzero => absurd rfl hzero

theorem Shallow.mono {m : ℕ} (hs : I.Shallow L M r m) (hle : m ≤ n) : I.Shallow L M r n :=
  fun h t hwf hlen hlt hids => (hs h t hwf hlen hlt hids).trans hle

/-- There are fewer levels than ids. -/
theorem shallow_of_length (hlen : I.ids.length ≤ n) : I.Shallow L M r n := by
  intro h t hwf _ _ hids
  have hlevels := hwf.searchable.separated.lt_length_ids
  omega

/-- There are no more levels than records. -/
theorem shallow_of_height (hr : r < n) : I.Shallow L M r n := by
  intro h t _ _ hlt _
  omega

theorem shallow_of_records {H : ℕ} (hM : 1 ≤ M)
    (hr : r < 2 * (((M + 1) / 2) ^ H * ((L + 1) / 2))) : I.Shallow L M r (H + 2) := by
  intro h t hwf hentries _ _
  by_contra hhigh
  obtain ⟨m, rfl⟩ : ∃ m, h = m + 1 := ⟨h - 1, by omega⟩
  have hpow : ((M + 1) / 2) ^ H ≤ ((M + 1) / 2) ^ m :=
    Nat.pow_le_pow_right (by omega) (by omega)
  have hfew := Tree.Filled.pow_le_length (hwf.branched m.succ_ne_zero) hwf.filled
  have hmany := Nat.mul_le_mul_left 2 (Nat.mul_le_mul_right ((L + 1) / 2) hpow)
  omega

theorem shallow_of_ids {H : ℕ} (hM : 1 ≤ M) (hids : I.ids.length ≤ 2 * ((M + 1) / 2) ^ H) :
    I.Shallow L M r (H + 2) := by
  intro h t hwf _ _ hpages
  by_contra hhigh
  obtain ⟨m, rfl⟩ : ∃ m, h = m + 1 := ⟨h - 1, by omega⟩
  have hpow : ((M + 1) / 2) ^ H ≤ ((M + 1) / 2) ^ m :=
    Nat.pow_le_pow_right (by omega) (by omega)
  have hfew := Tree.Filled.pow_le_leaves (hwf.branched m.succ_ne_zero) hwf.filled
  have hleaves := t.leaf_ids_sublist.length_le
  rw [List.length_map] at hleaves
  omega

theorem shallow_of_either {H : ℕ} (hM : 1 ≤ M)
    (hlevels : r < n ∨ H + 2 ≤ n ∧ (r < 2 * (((M + 1) / 2) ^ H * ((L + 1) / 2)) ∨
      I.ids.length ≤ 2 * ((M + 1) / 2) ^ H)) :
    I.Shallow L M r n := by
  obtain hr | ⟨hn, hr | hids⟩ := hlevels
  · exact shallow_of_height hr
  · exact (shallow_of_records hM hr).mono hn
  · exact (shallow_of_ids hM hids).mono hn

end IdSupply

end StorageEngine
