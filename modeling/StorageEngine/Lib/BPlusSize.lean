import StorageEngine.Lib.BPlusGrowth
import StorageEngine.Lib.BPlusPath

/-!
How large a B+Tree is.

Nodes that are half full make the number of entries grow with a power of the
height, and the number of nodes linear in that of the leaves. An insertion
that finds too few identifiers would have built a larger tree.
-/

namespace StorageEngine.Lib.BPlus

universe u

variable {I K V : Type u} {h : ℕ} {maxLeaf maxBranch : ℕ}

/-! ### Lists of lists -/

section Lists

variable {α β γ : Type*}

theorem mul_le_length_flatMap {xs : List α} {f : α → List β} {c : ℕ}
    (hf : ∀ x ∈ xs, c ≤ (f x).length) : xs.length * c ≤ (xs.flatMap f).length := by
  induction xs with
  | nil => simp
  | cons x xs ih =>
      have hx := hf x List.mem_cons_self
      have hxs := ih fun y hy => hf y (List.mem_cons_of_mem x hy)
      rw [List.flatMap_cons, List.length_append, List.length_cons, Nat.succ_mul]
      omega

/-- A bound on each list by its partner, summed up. -/
theorem length_flatMap_le {xs : List α} {f : α → List β} {g : α → List γ} {a b c : ℕ}
    (hfg : ∀ x ∈ xs, a * (f x).length + b ≤ c * (g x).length) :
    a * (xs.flatMap f).length + b * xs.length ≤ c * (xs.flatMap g).length := by
  induction xs with
  | nil => simp
  | cons x xs ih =>
      have hx := hfg x List.mem_cons_self
      have hxs := ih fun y hy => hfg y (List.mem_cons_of_mem x hy)
      simp only [List.flatMap_cons, List.length_append, List.length_cons, Nat.mul_add, Nat.mul_one]
      omega

end Lists

/-! ### Entries and height -/

/-- A subtree whose nodes are all half full. -/
theorem Tree.HalfFull.pow_le_length : ∀ {h : ℕ} {t : Tree I K V h},
    t.HalfFull maxLeaf maxBranch → t.Filled maxLeaf maxBranch →
      ((maxBranch + 1) / 2) ^ h * ((maxLeaf + 1) / 2) ≤ t.entries.length
  | 0, t, hhalf, _ => by
      rw [Tree.entries_of_leaf, pow_zero, one_mul]
      exact hhalf
  | h + 1, t, hhalf, hfilled => by
      have hchildren : (maxBranch + 1) / 2 ≤ t.children.length := hhalf
      have hall : ∀ e ∈ t.children,
          ((maxBranch + 1) / 2) ^ h * ((maxLeaf + 1) / 2) ≤ e.2.entries.length := fun e he =>
        (hfilled e he).1.pow_le_length (hfilled e he).2
      rw [Tree.entries_of_branch, pow_succ', mul_assoc]
      exact (Nat.mul_le_mul_right _ hchildren).trans (mul_le_length_flatMap hall)

/-- **The height is logarithmic** in the number of entries. -/
theorem Tree.Filled.pow_le_length {t : Tree I K V (h + 1)} (hsize : 2 ≤ t.size)
    (hfilled : t.Filled maxLeaf maxBranch) :
    2 * (((maxBranch + 1) / 2) ^ h * ((maxLeaf + 1) / 2)) ≤ t.entries.length := by
  have hchildren : 2 ≤ t.children.length := hsize
  have hall : ∀ e ∈ t.children,
      ((maxBranch + 1) / 2) ^ h * ((maxLeaf + 1) / 2) ≤ e.2.entries.length := fun e he =>
    (hfilled e he).1.pow_le_length (hfilled e he).2
  rw [Tree.entries_of_branch]
  exact (Nat.mul_le_mul_right _ hchildren).trans (mul_le_length_flatMap hall)

/-- Every leaf but one that is the root is half full. -/
theorem Tree.Filled.leaves_mul_le : ∀ {h : ℕ} {t : Tree I K V h},
    h ≠ 0 ∨ t.HalfFull maxLeaf maxBranch → t.Filled maxLeaf maxBranch →
      (maxLeaf + 1) / 2 * t.leaves.length ≤ t.entries.length
  | 0, t, hhalf, _ => by
      have hleaves : t.leaves.length = 1 := rfl
      rw [Tree.entries_of_leaf, hleaves, mul_one]
      exact hhalf.resolve_left (not_not_intro rfl)
  | h + 1, t, _, hfilled => by
      have hall : ∀ e ∈ t.children,
          (maxLeaf + 1) / 2 * e.2.leaves.length + 0 ≤ 1 * e.2.entries.length := fun e he => by
        rw [one_mul]
        exact (hfilled e he).2.leaves_mul_le (Or.inr (hfilled e he).1)
      have hsum := length_flatMap_le hall
      rw [Tree.entries_of_branch, Tree.leaves_of_branch]
      rwa [zero_mul, one_mul] at hsum

/-- As many leaves as a tree of this height has at least. -/
theorem Tree.HalfFull.pow_le_leaves : ∀ {h : ℕ} {t : Tree I K V h},
    t.HalfFull maxLeaf maxBranch → t.Filled maxLeaf maxBranch →
      ((maxBranch + 1) / 2) ^ h ≤ t.leaves.length
  | 0, _, _, _ => le_rfl
  | h + 1, t, hhalf, hfilled => by
      have hchildren : (maxBranch + 1) / 2 ≤ t.children.length := hhalf
      have hall : ∀ e ∈ t.children, ((maxBranch + 1) / 2) ^ h ≤ e.2.leaves.length :=
        fun e he => (hfilled e he).1.pow_le_leaves (hfilled e he).2
      rw [Tree.leaves_of_branch, pow_succ']
      exact (Nat.mul_le_mul_right _ hchildren).trans (mul_le_length_flatMap hall)

theorem Tree.Filled.pow_le_leaves {t : Tree I K V (h + 1)} (hsize : 2 ≤ t.size)
    (hfilled : t.Filled maxLeaf maxBranch) :
    2 * ((maxBranch + 1) / 2) ^ h ≤ t.leaves.length := by
  have hchildren : 2 ≤ t.children.length := hsize
  have hall : ∀ e ∈ t.children, ((maxBranch + 1) / 2) ^ h ≤ e.2.leaves.length :=
    fun e he => (hfilled e he).1.pow_le_leaves (hfilled e he).2
  rw [Tree.leaves_of_branch]
  exact (Nat.mul_le_mul_right _ hchildren).trans (mul_le_length_flatMap hall)

/-! ### Nodes and leaves -/

theorem Tree.HalfFull.two_le_size {t : Tree I K V h} (hhalf : t.HalfFull maxLeaf maxBranch)
    (hbranch : 3 ≤ maxBranch) (hne : h ≠ 0) : 2 ≤ t.size := by
  obtain ⟨n, rfl⟩ := Nat.exists_eq_succ_of_ne_zero hne
  have hchildren : (maxBranch + 1) / 2 ≤ t.children.length := hhalf
  show 2 ≤ t.children.length
  omega

/-- **Fewer branches than leaves**, where every branch has two children. -/
theorem Tree.Filled.length_ids_lt (hbranch : 3 ≤ maxBranch) : ∀ {h : ℕ} {t : Tree I K V h},
    (h ≠ 0 → 2 ≤ t.size) → t.Filled maxLeaf maxBranch →
      t.ids.length < 2 * t.leaves.length
  | 0, _, _, _ => Nat.one_lt_two
  | h + 1, t, hsize, hfilled => by
      have hchildren : 2 ≤ t.children.length := hsize h.succ_ne_zero
      have hall : ∀ e ∈ t.children, 1 * e.2.ids.length + 1 ≤ 2 * e.2.leaves.length :=
        fun e he => by
          rw [one_mul]
          exact (hfilled e he).2.length_ids_lt hbranch ((hfilled e he).1.two_le_size hbranch)
      have hsum := length_flatMap_le hall
      rw [Tree.ids_of_branch, Tree.leaves_of_branch, List.length_cons]
      omega

section Separated

variable [LinearOrder K] [OrderBot K]

theorem Tree.Separated.leaves_pos : ∀ {h : ℕ} {t : Tree I K V h}, t.Separated →
    0 < t.leaves.length
  | 0, _, _ => Nat.one_pos
  | h + 1, t, hs => by
      obtain ⟨⟨c, rest, hc, -⟩, hall⟩ := hs.branch
      have hchild := (hall (⊥, c) (by simp [hc])).leaves_pos
      rw [Tree.leaves_of_branch, hc, List.flatMap_cons, List.length_append]
      omega

/-- Every leaf has its ancestors, one at each level. -/
theorem Tree.Separated.length_ids_le : ∀ {h : ℕ} {t : Tree I K V h}, t.Separated →
    t.ids.length ≤ (h + 1) * t.leaves.length
  | 0, _, _ => le_rfl
  | h + 1, t, hs => by
      have hpos := hs.leaves_pos
      have hall : ∀ e ∈ t.children, 1 * e.2.ids.length + 0 ≤ (h + 1) * e.2.leaves.length :=
        fun e he => by
          rw [one_mul]
          exact (hs.branch.2 e he).length_ids_le
      have hsum := length_flatMap_le hall
      rw [← Tree.leaves_of_branch] at hsum
      rw [Tree.ids_of_branch, List.length_cons, Nat.succ_mul (h + 1)]
      omega

/-- No leaf is empty. -/
theorem Tree.Separated.length_leaves_le {t : Tree I K V h} (hs : t.Separated) :
    t.leaves.length ≤ t.entries.length := by
  have hsum := mul_le_length_flatMap (c := 1) fun l hl =>
    List.length_pos_iff.mpr (hs.leaf_ne_nil l hl)
  rwa [mul_one] at hsum

end Separated

/-! ### Trees that identifiers did not suffice for -/

section Outgrown

variable [LinearOrder K] [OrderBot K] {sort : List (K × V) → List (K × V)} {k : K} {v : V}
variable {t : Tree I K V h} {fresh : List I} {stop : I}

/-- **An insertion that ends for want of identifiers** would have built a
well-formed tree that has more nodes than there were identifiers. The nodes
are named after a `spare` identifier here, which only has to be none that a
leaf is linked to. -/
theorem Tree.WellFormed.outgrows (ht : t.WellFormed maxLeaf maxBranch stop) (hsort : Sorts sort)
    (hleaf : 1 ≤ maxLeaf) (hbranch : 2 ≤ maxBranch) {spare : I}
    (hnext : ∀ l ∈ t.leaves, l.next ∉ fresh) (hspare : ∀ l ∈ t.leaves, l.next ≠ spare)
    (hnone : t.insert sort maxLeaf maxBranch k v fresh = none ∨
      ∃ l s r, t.insert sort maxLeaf maxBranch k v fresh = some (.split l s r, [])) :
    ∃ (n : ℕ) (t' : Tree I K V n), t'.WellFormed maxLeaf maxBranch stop ∧ n ≤ h + 1 ∧
      t'.entries.Perm ((k, v) :: t.entries) ∧ t.ids.length + fresh.length < t'.ids.length := by
  have hsep := ht.searchable.separated
  rcases hnone with hnone | ⟨l, s, r, hins⟩
  · -- with enough identifiers the insertion takes one for every node that is split
    have hwrites := Tree.insert_writes (k := k) (v := v) hsort.perm hbranch hsep ht.fits hnext
    rw [hnone] at hwrites
    have hfew : fresh.length < _ := hwrites
    have hnext' : ∀ l ∈ t.leaves, l.next ∉ fresh ++ List.replicate (h + 1) spare := by
      intro l hl hmem
      rcases List.mem_append.mp hmem with hmem | hmem
      · exact hnext l hl hmem
      · exact hspare l hl (List.eq_of_mem_replicate hmem)
    have hwrites' := Tree.insert_writes (k := k) (v := v) hsort.perm hbranch hsep ht.fits hnext'
    cases hins : t.insert sort maxLeaf maxBranch k v (fresh ++ List.replicate (h + 1) spare) with
    | none =>
        rw [hins] at hwrites'
        have hle := hwrites'.length_fresh_le
        rw [List.length_append, List.length_replicate] at hle
        omega
    | some out =>
        obtain ⟨g, rest⟩ := out
        rw [hins] at hwrites'
        have hlen := hwrites'.length_fresh
        cases g with
        | fit t' =>
            obtain ⟨hwf, hperm, used, hused, hids⟩ := ht.fit hsort hleaf hbranch hins
            have hids := hids.length_eq
            rw [hused] at hlen
            replace hused := congrArg List.length hused
            simp only [List.length_append] at hids hused hlen
            exact ⟨h, t', hwf, h.le_succ, hperm, by omega⟩
        | split l s r =>
            obtain ⟨hwf, hperm, used, hused, hids⟩ := ht.split hsort hleaf hbranch hins spare
            have hids := hids.length_eq
            rw [hused] at hlen
            replace hused := congrArg List.length hused
            simp only [List.length_cons, List.length_append] at hids hused hlen
            exact ⟨h + 1, _, hwf, le_rfl, hperm, by omega⟩
  · obtain ⟨hwf, hperm, used, hused, hids⟩ := ht.split hsort hleaf hbranch hins spare
    have hids := hids.length_eq
    rw [hused, List.append_nil]
    rw [List.length_cons, List.length_append] at hids
    exact ⟨h + 1, _, hwf, le_rfl, hperm, by omega⟩

end Outgrown

end StorageEngine.Lib.BPlus
