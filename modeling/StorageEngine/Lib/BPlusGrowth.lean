import StorageEngine.Lib.BPlusInsert

/-!
Whole B+Trees from one insertion to the next.

A root that was split gets a new root above its halves. `WellFormed` is what
then holds again.
-/

namespace StorageEngine.Lib.BPlus

universe u

variable {I K V : Type u}

/-- A node that is not split by an insertion below it. -/
def Tree.Room (maxLeaf maxBranch : ℕ) : {h : ℕ} → Tree I K V h → Prop
  | 0, t => t.toLeaf.entries.length < maxLeaf
  | _ + 1, t => t.children.length < maxBranch

/-- The node that keeps its identifier. -/
def Grown.kept {T : Type u} : Grown T K → T
  | .fit t => t
  | .split l _ _ => l

section Results

variable {sort : List (K × V) → List (K × V)} {maxLeaf maxBranch : ℕ}
variable {h : ℕ} {k : K} {v : V} {fresh fresh' : List I}

theorem drop_half_ne_nil {α : Type*} {xs : List α} (hx : 0 < xs.length) :
    xs.drop (xs.length / 2) ≠ [] := by
  rw [Ne, List.drop_eq_nil_iff]
  omega

theorem insertLeaf_of_length_le {t : Tree I K V 0}
    (hle : (sort (t.toLeaf.entries ++ [(k, v)])).length ≤ maxLeaf) :
    insertLeaf sort maxLeaf t k v fresh = some
      (.fit (.leaf t.id t.toLeaf.next (sort (t.toLeaf.entries ++ [(k, v)]))), fresh) :=
  if_pos hle

theorem insertLeaf_of_lt {t : Tree I K V 0} {new : I} {e : K × V} {right : List (K × V)}
    (hlt : maxLeaf < (sort (t.toLeaf.entries ++ [(k, v)])).length)
    (hdrop : (sort (t.toLeaf.entries ++ [(k, v)])).drop
      ((sort (t.toLeaf.entries ++ [(k, v)])).length / 2) = e :: right) :
    insertLeaf sort maxLeaf t k v (new :: fresh) = some
      (.split (.leaf t.id new ((sort (t.toLeaf.entries ++ [(k, v)])).take
        ((sort (t.toLeaf.entries ++ [(k, v)])).length / 2))) e.1
        (.leaf new t.toLeaf.next (e :: right)), fresh) := by
  unfold insertLeaf
  simp only
  rw [if_neg (not_le.mpr hlt), hdrop]

theorem insertLeaf_of_nil {t : Tree I K V 0}
    (hlt : maxLeaf < (sort (t.toLeaf.entries ++ [(k, v)])).length) :
    insertLeaf sort maxLeaf t k v ([] : List I) = none := if_neg (not_le.mpr hlt)

variable [Bot K]

theorem graft_of_lt {id new : I} {cs right : List (K × Tree I K V h)} {e : K × Tree I K V h}
    (hlt : maxBranch < cs.length) (hdrop : cs.drop (cs.length / 2) = e :: right) :
    graft maxBranch id cs (new :: fresh) = some
      (.split (.branch id (cs.take (cs.length / 2))) e.1 (.branch new ((⊥, e.2) :: right)),
        fresh) := by
  unfold graft
  rw [if_neg (not_le.mpr hlt), hdrop]

theorem graft_of_nil {id : I} {cs : List (K × Tree I K V h)} (hlt : maxBranch < cs.length) :
    graft maxBranch id cs ([] : List I) = none := if_neg (not_le.mpr hlt)

theorem graft_of_length_le {id : I} {cs : List (K × Tree I K V h)}
    (hle : cs.length ≤ maxBranch) :
    graft maxBranch id cs fresh = some (.fit (.branch id cs), fresh) := if_pos hle

end Results

section Growth

variable {sort : List (K × V) → List (K × V)} {maxLeaf maxBranch : ℕ}
variable [LinearOrder K] [OrderBot K] {h : ℕ} {k : K} {v : V} {fresh fresh' : List I}

theorem Tree.id_of_insert : ∀ {h : ℕ} {t : Tree I K V h} {g : Grown (Tree I K V h) K}
    {fresh fresh' : List I}, t.insert sort maxLeaf maxBranch k v fresh = some (g, fresh') →
      g.kept.id = t.id
  | 0, t, g, fresh, fresh', hins => by
      rw [Tree.insert] at hins
      unfold insertLeaf at hins
      simp only at hins
      split at hins
      · rw [← (Prod.mk.inj (Option.some.inj hins)).1]
        rfl
      · split at hins
        · rw [← (Prod.mk.inj (Option.some.inj hins)).1]
          rfl
        · simp at hins
  | h + 1, t, g, fresh, fresh', hins => by
      rw [Tree.insert] at hins
      split at hins
      · simp at hins
      split at hins
      · simp at hins
      unfold graft at hins
      split at hins
      · rw [← (Prod.mk.inj (Option.some.inj hins)).1]
        rfl
      · split at hins
        · rw [← (Prod.mk.inj (Option.some.inj hins)).1]
          rfl
        · simp at hins

/-- A tree has more nodes than levels. -/
theorem Tree.Separated.lt_length_ids : ∀ {h : ℕ} {t : Tree I K V h}, t.Separated →
    h < t.ids.length
  | 0, _, _ => Nat.zero_lt_one
  | h + 1, t, hs => by
      obtain ⟨⟨c, rest, hc, -⟩, hall⟩ := hs.branch
      have hchild := (hall (⊥, c) (by simp [hc])).lt_length_ids
      rw [Tree.ids_of_branch, hc, List.flatMap_cons, List.length_cons, List.length_append]
      omega

/-- What holds of a whole tree, whose last leaf ends in `stop`. -/
structure Tree.WellFormed (maxLeaf maxBranch : ℕ) (stop : I) (t : Tree I K V h) : Prop where
  searchable : t.Searchable
  fits : t.Fits maxLeaf maxBranch
  filled : t.Filled maxLeaf maxBranch
  branched : h ≠ 0 → 2 ≤ t.size
  linked : ∃ start, Linked start t.leaves stop

variable {stop : I} {t t' l r : Tree I K V h} {s : K}

/-- An insertion that leaves the root in place. -/
theorem Tree.WellFormed.fit (ht : t.WellFormed maxLeaf maxBranch stop) (hsort : Sorts sort)
    (hleaf : 1 ≤ maxLeaf) (hbranch : 2 ≤ maxBranch)
    (hins : t.insert sort maxLeaf maxBranch k v fresh = some (.fit t', fresh')) :
    t'.WellFormed maxLeaf maxBranch stop ∧ t'.entries.Perm ((k, v) :: t.entries) ∧
      ∃ used, fresh = used ++ fresh' ∧ t'.ids.Perm (t.ids ++ used) := by
  have hg := Tree.insert_grew hsort hleaf hbranch ht.searchable ht.fits ht.filled hins ⊥
  have hmem : ((⊥, t') : K × Tree I K V h) ∈ Grown.children ⊥ (.fit t') := by
    simp [Grown.children]
  have hentries : entriesOf (Grown.children ⊥ (.fit t')) = t'.entries := by
    simp [Grown.children]
  have hleaves : ((Grown.children ⊥ (.fit t') : List (K × Tree I K V h)).flatMap
      fun e => e.2.leaves) = t'.leaves := by
    simp [Grown.children]
  have hids : ((Grown.children ⊥ (.fit t') : List (K × Tree I K V h)).flatMap
      fun e => e.2.ids) = t'.ids := by
    simp [Grown.children]
  refine ⟨⟨⟨?_, hg.separated _ hmem⟩, hg.fits _ hmem, hg.filled _ hmem, fun hne => ?_, ?_⟩,
    ?_, ?_⟩
  · rw [← hentries]
    exact hg.sorted
  · exact (ht.branched hne).trans (hg.size t' rfl)
  · obtain ⟨start, hlinked⟩ := ht.linked
    refine ⟨start, ?_⟩
    rw [← hleaves]
    exact hg.linked start stop hlinked
  · rw [← hentries]
    exact hg.entries
  · rw [← hids]
    exact hg.ids

/-- An insertion that splits the root, with the new root above the halves. -/
theorem Tree.WellFormed.split (ht : t.WellFormed maxLeaf maxBranch stop) (hsort : Sorts sort)
    (hleaf : 1 ≤ maxLeaf) (hbranch : 2 ≤ maxBranch)
    (hins : t.insert sort maxLeaf maxBranch k v fresh = some (.split l s r, fresh')) (new : I) :
    (Tree.branch new [(⊥, l), (s, r)]).WellFormed maxLeaf maxBranch stop ∧
      (Tree.branch new [(⊥, l), (s, r)]).entries.Perm ((k, v) :: t.entries) ∧
      ∃ used, fresh = used ++ fresh' ∧
        (Tree.branch new [(⊥, l), (s, r)]).ids.Perm (new :: (t.ids ++ used)) := by
  have hg := Tree.insert_grew hsort hleaf hbranch ht.searchable ht.fits ht.filled hins ⊥
  obtain ⟨c, rest, hcs, -, hkeyed, -⟩ := hg.head
  obtain ⟨used, hused, hids⟩ := hg.ids
  refine ⟨⟨⟨?_, ⟨c, rest, hcs, hkeyed⟩, hg.separated⟩, ⟨hbranch, hg.fits⟩, ?_,
    fun _ => le_rfl, ?_⟩, ?_, used, hused, ?_⟩
  · rw [Tree.entries_of_branch]
    exact hg.sorted
  · exact fun e he => ⟨hg.halfFull (Or.inr Nat.one_lt_two) e he, hg.filled e he⟩
  · obtain ⟨start, hlinked⟩ := ht.linked
    exact ⟨start, hg.linked start stop hlinked⟩
  · rw [Tree.entries_of_branch]
    exact hg.entries
  · rw [Tree.ids_of_branch]
    exact List.Perm.cons new hids

end Growth

end StorageEngine.Lib.BPlus
