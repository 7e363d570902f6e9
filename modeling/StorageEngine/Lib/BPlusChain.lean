import StorageEngine.Lib.BPlusTree

/-!
What the order of a B+Tree says about its nodes and about its chain of leaves.

`Ordered` spells the search order out at every node. A search for a key ends
in the last leaf that may hold it, so that the leaf decides whether the key is
in the tree, and the chain from that leaf on has all entries from the key on
exactly if no other leaf holds the key.
-/

namespace StorageEngine.Lib.BPlus

universe u

variable {I K V : Type u} {h : ℕ} {k : K}

theorem exists_of_leastKey {t : Tree I K V h} {a : K} (ha : t.leastKey = some a) :
    ∃ x ∈ t.entries, x.1 = a := by
  obtain ⟨x, hx, hxa⟩ := Option.map_eq_some_iff.mp ha
  exact ⟨x, List.mem_of_mem_head? hx, hxa⟩

/-- The children of a branch around position `i`. -/
theorem children_split {cs : List (K × Tree I K V h)} {i : ℕ} {e : K × Tree I K V h}
    (he : cs[i]? = some e) : cs = cs.take i ++ e :: cs.drop (i + 1) := by
  obtain ⟨hi, rfl⟩ := List.getElem?_eq_some_iff.mp he
  rw [← List.drop_eq_getElem_cons hi, List.take_append_drop]

theorem Tree.leaf_mem_nodes : ∀ {h : ℕ} {t : Tree I K V h} {l : Leaf I K V}, l ∈ t.leaves →
    (l.id, Node.leaf l.next l.entries) ∈ t.nodes
  | 0, t, l, hl => by
      obtain rfl := List.mem_singleton.mp hl
      exact List.mem_singleton.mpr rfl
  | h + 1, t, l, hl => by
      obtain ⟨e, he, hle⟩ := List.mem_flatMap.mp hl
      exact List.mem_cons_of_mem _ (List.mem_flatMap.mpr ⟨e, he, Tree.leaf_mem_nodes hle⟩)

variable [LinearOrder K]

theorem Tree.locate_mem : ∀ {h : ℕ} {t : Tree I K V h} {l : Leaf I K V},
    t.locate k = some l → l ∈ t.leaves
  | 0, t, l, hl => by
      obtain rfl : t.toLeaf = l := Option.some.inj hl
      exact List.mem_singleton.mpr rfl
  | h + 1, t, l, hl => by
      rw [Tree.locate] at hl
      split at hl
      · simp at hl
      next pre e post hcut =>
      refine List.mem_flatMap.mpr ⟨e, ?_, Tree.locate_mem hl⟩
      rw [(cut_eq_some hcut).1]
      simp

variable [OrderBot K]

/-- The order at every node: the entries of a node do not decrease, a branch
starts with `⊥`, and the keys below a child lie between its own key, which
but for the first child is among them, and that of the next child. -/
def Tree.Ordered : {h : ℕ} → Tree I K V h → Prop
  | 0, t => SortedKeys t.toLeaf.entries
  | _ + 1, t => SortedKeys t.children ∧ t.children.head?.map Prod.fst = some ⊥ ∧
      ∀ i e, t.children[i]? = some e →
        (∀ x ∈ e.2.entries, e.1 ≤ x.1) ∧
        (∀ e', t.children[i + 1]? = some e' → ∀ x ∈ e.2.entries, x.1 ≤ e'.1) ∧
        (1 ≤ i → ∃ x ∈ e.2.entries, x.1 = e.1) ∧ e.2.Ordered

theorem Tree.Searchable.ordered : ∀ {h : ℕ} {t : Tree I K V h}, t.Searchable → t.Ordered
  | 0, t, hs => by
      have hsorted := hs.sorted
      rwa [Tree.entries_of_leaf] at hsorted
  | h + 1, t, hs => by
      obtain ⟨⟨c, rest, hrest, hkeyed⟩, -⟩ := hs.separated.branch
      refine ⟨hs.children_sorted, by rw [hrest]; rfl, fun i e he => ?_⟩
      have hc := children_split he
      have hchild := hs.child hc
      have hleast : ∀ (j : ℕ) (x : K × Tree I K V h), 1 ≤ j → t.children[j]? = some x →
          x.2.leastKey = some x.1 := by
        intro j x hj hx
        obtain ⟨j, rfl⟩ : ∃ i, j = i + 1 := ⟨j - 1, by omega⟩
        rw [hrest, List.getElem?_cons_succ] at hx
        exact hkeyed x (List.mem_of_getElem? hx)
      refine ⟨fun x hx => ?_, fun e' he' x hx => ?_, fun hi => ?_, hchild.ordered⟩
      · cases i with
        | zero =>
            rw [hrest, List.getElem?_cons_zero] at he
            rw [← Option.some.inj he]
            exact bot_le
        | succ i => exact hchild.sorted.head_le (hleast (i + 1) e (by omega) he) hx
      · obtain ⟨y, hy, hye⟩ := exists_of_leastKey (hleast (i + 1) e' (by omega) he')
        have hsorted := hs.sorted
        rw [Tree.entries_of_branch, hc, entriesOf_append, entriesOf_cons] at hsorted
        have hcross := (sortedKeys_append.mp (sortedKeys_append.mp hsorted).2.1).2.2
        rw [← hye]
        refine hcross x hx y (List.mem_flatMap.mpr ⟨e', ?_, hy⟩)
        apply List.mem_of_getElem? (i := 0)
        rw [List.getElem?_drop]
        exact he'
      · exact exists_of_leastKey (hleast i e hi he)

/-! ### The chain from the leaf of a search on -/

/-- The leaf has an entry with the key `k`. -/
def Leaf.Has (k : K) (l : Leaf I K V) : Prop := ∃ e ∈ l.entries, e.1 = k

instance (k : K) (l : Leaf I K V) : Decidable (l.Has k) :=
  inferInstanceAs (Decidable (∃ e ∈ l.entries, e.1 = k))

/-- The leaves before the one a search ends in have no key above `k`, and `k`
itself only together with that leaf. -/
theorem Tree.Searchable.before {t : Tree I K V h} (hs : t.Searchable)
    {before after : List (Leaf I K V)} {l : Leaf I K V}
    (hleaves : t.leaves = before ++ l :: after)
    (hbefore : before ≠ [] → ∃ a, l.entries.head?.map Prod.fst = some a ∧ a ≤ k)
    {l' : Leaf I K V} (hl' : l' ∈ before) {x : K × V} (hx : x ∈ l'.entries) :
    x.1 ≤ k ∧ (x.1 = k → l.Has k) := by
  obtain ⟨a, ha, hak⟩ := hbefore (List.ne_nil_of_mem hl')
  obtain ⟨y, hy, rfl⟩ := Option.map_eq_some_iff.mp ha
  have hyl : y ∈ l.entries := List.mem_of_mem_head? hy
  have hsorted := hs.sorted
  rw [Tree.entries, hleaves, List.flatMap_append, List.flatMap_cons] at hsorted
  have hxy : x.1 ≤ y.1 := (sortedKeys_append.mp hsorted).2.2 x
    (List.mem_flatMap.mpr ⟨l', hl', hx⟩) y (List.mem_append_left _ hyl)
  exact ⟨hxy.trans hak, fun hxk => ⟨y, hyl, le_antisymm hak (hxk ▸ hxy)⟩⟩

/-- The leaf a search ends in decides whether the key is in the tree. -/
theorem Tree.Searchable.has_of_mem {t : Tree I K V h} (hs : t.Searchable) {l : Leaf I K V}
    (hl : t.locate k = some l) {x : K × V} (hx : x ∈ t.entries) (hxk : x.1 = k) : l.Has k := by
  obtain ⟨before, l₀, after, hlocate, hleaves, hbefore, hafter⟩ := hs.locate_spec k
  obtain rfl : l₀ = l := Option.some.inj (hlocate.symm.trans hl)
  obtain ⟨l', hl', hxl⟩ := List.mem_flatMap.mp hx
  rw [hleaves] at hl'
  rcases List.mem_append.mp hl' with hl' | hl'
  · exact (hs.before hleaves hbefore hl' hxl).2 hxk
  · rcases List.mem_cons.mp hl' with rfl | hl'
    · exact ⟨x, hxl, hxk⟩
    · exact absurd hxk (hafter l' hl' x hxl).ne'

/-- **The chain from the leaf of a search on** has every entry from `k` on if
and only if at most one leaf has the key `k`. -/
theorem Tree.Searchable.chain_complete_iff {t : Tree I K V h} (hs : t.Searchable)
    {before after : List (Leaf I K V)} {l : Leaf I K V}
    (hleaves : t.leaves = before ++ l :: after)
    (hbefore : before ≠ [] → ∃ a, l.entries.head?.map Prod.fst = some a ∧ a ≤ k)
    (hafter : ∀ l' ∈ after, ∀ x ∈ l'.entries, k < x.1) :
    (((l :: after).flatMap Leaf.entries).filter (k ≤ ·.1)).Perm (t.entries.filter (k ≤ ·.1)) ↔
      (t.leaves.filter (Leaf.Has k ·)).length ≤ 1 := by
  have hsplit : t.entries.filter (k ≤ ·.1) = (before.flatMap Leaf.entries).filter (k ≤ ·.1) ++
      ((l :: after).flatMap Leaf.entries).filter (k ≤ ·.1) := by
    rw [← List.filter_append, ← List.flatMap_append, ← hleaves]
    rfl
  have hnone : after.filter (Leaf.Has k ·) = [] := by
    apply List.filter_eq_nil_iff.mpr
    intro l' hl'
    simp only [decide_eq_true_eq]
    rintro ⟨x, hx, hxk⟩
    exact absurd hxk (hafter l' hl' x hx).ne'
  constructor
  · intro hperm
    have hlen := hperm.length_eq
    rw [hsplit, List.length_append] at hlen
    have hempty : (before.flatMap Leaf.entries).filter (k ≤ ·.1) = [] :=
      List.length_eq_zero_iff.mp (by omega)
    have hno : before.filter (Leaf.Has k ·) = [] := by
      apply List.filter_eq_nil_iff.mpr
      intro l' hl'
      simp only [decide_eq_true_eq]
      rintro ⟨x, hx, hxk⟩
      have hnot := List.filter_eq_nil_iff.mp hempty x (List.mem_flatMap.mpr ⟨l', hl', hx⟩)
      exact hnot (by simp [hxk])
    rw [hleaves, List.filter_append, List.filter_cons, hno, hnone]
    split <;> simp
  · intro hone
    have hempty : (before.flatMap Leaf.entries).filter (k ≤ ·.1) = [] := by
      apply List.filter_eq_nil_iff.mpr
      intro x hx
      obtain ⟨l', hl', hxl⟩ := List.mem_flatMap.mp hx
      simp only [decide_eq_true_eq]
      intro hkx
      -- a second leaf with the key, beside the one the search ends in
      obtain ⟨hxk, hhas⟩ := hs.before hleaves hbefore hl' hxl
      have heq := le_antisymm hxk hkx
      have hpos : 0 < (before.filter (Leaf.Has k ·)).length := by
        refine List.length_pos_of_mem (List.mem_filter.mpr ⟨hl', ?_⟩)
        simpa using ⟨x, hxl, heq⟩
      rw [hleaves, List.filter_append, List.filter_cons, if_pos (by simpa using hhas heq),
        List.length_append, List.length_cons] at hone
      omega
    rw [hsplit, hempty, List.nil_append]

end StorageEngine.Lib.BPlus
