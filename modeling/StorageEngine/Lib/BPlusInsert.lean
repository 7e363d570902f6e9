import StorageEngine.Lib.BPlusTree

/-!
Insertion into B+Trees.

An insertion below a node either leaves the node in place or splits it in
two, and says which key separates the halves. Fresh identifiers come from a
list, from its front on; without one a split has no result. Leaves are put
in order by a given sorting function.

`Grew` says everything an insertion does to a subtree, in terms of the one
or two children that take its place. It is proved from the leaf upwards:
`Level` is what is known of the children of a branch before the branch
itself is split.
-/

namespace StorageEngine.Lib.BPlus

universe u

variable {I K V : Type u}

/-- What became of a node. -/
inductive Grown (T K : Type u)
  | fit (node : T)
  | split (left : T) (sep : K) (right : T)

/-- The children that take the place of one listed under `key`. -/
def Grown.children {T : Type u} (key : K) : Grown T K → List (K × T)
  | .fit t => [(key, t)]
  | .split l sep r => [(key, l), (sep, r)]

section Definitions

variable (sort : List (K × V) → List (K × V)) (maxLeaf maxBranch : ℕ)

def insertLeaf (t : Tree I K V 0) (k : K) (v : V) (fresh : List I) :
    Option (Grown (Tree I K V 0) K × List I) :=
  let es := sort (t.toLeaf.entries ++ [(k, v)])
  if es.length ≤ maxLeaf then some (.fit (.leaf t.id t.toLeaf.next es), fresh)
  else
    match fresh, es.drop (es.length / 2) with
    | new :: fresh, e :: right =>
        some (.split (.leaf t.id new (es.take (es.length / 2))) e.1
          (.leaf new t.toLeaf.next (e :: right)), fresh)
    | _, _ => none

/-- A branch with the given children, split if they are too many. The key of
the child that becomes the first of the right half moves up. -/
def graft [Bot K] {h : ℕ} (id : I) (children : List (K × Tree I K V h)) (fresh : List I) :
    Option (Grown (Tree I K V (h + 1)) K × List I) :=
  if children.length ≤ maxBranch then some (.fit (.branch id children), fresh)
  else
    match fresh, children.drop (children.length / 2) with
    | new :: fresh, e :: right =>
        some (.split (.branch id (children.take (children.length / 2))) e.1
          (.branch new ((⊥, e.2) :: right)), fresh)
    | _, _ => none

variable [LinearOrder K] [OrderBot K]

def Tree.insert (k : K) (v : V) : {h : ℕ} → Tree I K V h → List I →
    Option (Grown (Tree I K V h) K × List I)
  | 0, t, fresh => insertLeaf sort maxLeaf t k v fresh
  | _ + 1, t, fresh =>
      match cut k t.children with
      | none => none
      | some (pre, e, post) =>
          match e.2.insert k v fresh with
          | none => none
          | some (g, fresh) =>
              graft maxBranch t.id (pre ++ (g.children e.1 ++ post)) fresh

end Definitions

/-- A sorting function returns its entries in the order of their keys. -/
structure Sorts [LE K] (sort : List (K × V) → List (K × V)) : Prop where
  perm : ∀ es, (sort es).Perm es
  sorted : ∀ es, SortedKeys (sort es)

section Insert

variable {sort : List (K × V) → List (K × V)} {maxLeaf maxBranch : ℕ}
variable [LinearOrder K] {h : ℕ} {k : K} {v : V} {fresh fresh' : List I}

/-- The least key of sorted entries stays the least when a key that is not
below it is added. -/
theorem leastKey_of_perm {es es' : List (K × V)} {a : K} (hs : SortedKeys es)
    (hs' : SortedKeys es') (hperm : es'.Perm ((k, v) :: es))
    (ha : es.head?.map Prod.fst = some a) (hak : a ≤ k) : es'.head?.map Prod.fst = some a := by
  obtain ⟨y, ys, rfl⟩ := List.exists_cons_of_ne_nil (show es' ≠ [] by
    rintro rfl
    simpa using hperm.length_eq)
  obtain ⟨x, hx, rfl⟩ := Option.map_eq_some_iff.mp ha
  have hxmem : x ∈ es := List.mem_of_mem_head? hx
  have hle : y.1 ≤ x.1 :=
    hs'.head_le rfl (hperm.mem_iff.mpr (List.mem_cons_of_mem _ hxmem))
  have hge : x.1 ≤ y.1 := by
    rcases List.mem_cons.mp (hperm.mem_iff.mp (List.mem_cons_self (a := y))) with rfl | hy
    · exact hak
    · exact hs.head_le ha hy
  simp [le_antisymm hle hge]

omit [LinearOrder K] in
theorem leastKey_eq_of_append {c : Tree I K V h} (hc : c.entries ≠ []) (es : List (K × V)) :
    (c.entries ++ es).head?.map Prod.fst = c.leastKey := by
  rw [List.head?_append_of_ne_nil _ hc]
  rfl

variable [OrderBot K]

/-- The subtree `t`, listed under `key`, became the children `cs` by the
insertion of `(k, v)`, which used up identifiers. -/
structure Grew (maxLeaf maxBranch : ℕ) (k : K) (v : V) (fresh fresh' : List I)
    (t : Tree I K V h) (key : K) (cs : List (K × Tree I K V h)) : Prop where
  head : ∃ c rest, cs = (key, c) :: rest ∧ c.id = t.id ∧ Keyed rest ∧ rest.length ≤ 1
  entries : (entriesOf cs).Perm ((k, v) :: t.entries)
  sorted : SortedKeys (entriesOf cs)
  separated : ∀ e ∈ cs, e.2.Separated
  linked : ∀ start stop, Linked start t.leaves stop →
    Linked start (cs.flatMap fun e => e.2.leaves) stop
  fits : ∀ e ∈ cs, e.2.Fits maxLeaf maxBranch
  filled : ∀ e ∈ cs, e.2.Filled maxLeaf maxBranch
  halfFull : t.HalfFull maxLeaf maxBranch ∨ 1 < cs.length →
    ∀ e ∈ cs, e.2.HalfFull maxLeaf maxBranch
  size : ∀ c, cs = [(key, c)] → t.size ≤ c.size
  ids : ∃ used, fresh = used ++ fresh' ∧ (cs.flatMap fun e => e.2.ids).Perm (t.ids ++ used)

/-! ### Leaves -/

section Leaves

variable {t : Tree I K V 0} {es left right : List (K × V)} {e : K × V} {new : I}

/-- The leaf takes all its entries. -/
theorem grew_leaf (hperm : es.Perm ((k, v) :: t.toLeaf.entries)) (hsorted : SortedKeys es)
    (hle : es.length ≤ maxLeaf) (key : K) : Grew maxLeaf maxBranch k v fresh fresh t key
      (Grown.children key (.fit (.leaf t.id t.toLeaf.next es))) where
  head := ⟨_, [], rfl, rfl, by simp [Keyed], by simp⟩
  entries := by simpa [Grown.children, Tree.entries_of_leaf] using hperm
  sorted := by simpa [Grown.children, Tree.entries_of_leaf] using hsorted
  separated := by
    intro x hx
    obtain rfl := List.mem_singleton.mp hx
    rintro (rfl : es = [])
    simp at hperm
  linked := fun start stop hlinked => hlinked
  fits := by
    intro x hx
    obtain rfl := List.mem_singleton.mp hx
    exact hle
  filled := by
    intro x hx
    obtain rfl := List.mem_singleton.mp hx
    trivial
  halfFull := by
    intro hhalf x hx
    obtain rfl := List.mem_singleton.mp hx
    have hlen := hperm.length_eq
    have hhalf' : (maxLeaf + 1) / 2 ≤ t.toLeaf.entries.length := by
      rcases hhalf with hhalf | hmany
      · exact hhalf
      · simp [Grown.children] at hmany
    show (maxLeaf + 1) / 2 ≤ es.length
    rw [List.length_cons] at hlen
    omega
  size := by
    intro c hc
    obtain rfl : Tree.leaf t.id t.toLeaf.next es = c := by simpa [Grown.children] using hc
    have hlen := hperm.length_eq
    show t.toLeaf.entries.length ≤ es.length
    rw [List.length_cons] at hlen
    omega
  ids := ⟨[], rfl, by simp [Grown.children, Tree.ids, Tree.nodes]⟩

/-- The leaf is split, and the upper half goes to a new one. -/
theorem grew_leaf_split (hmax : 1 ≤ maxLeaf) (hperm : es.Perm ((k, v) :: t.toLeaf.entries))
    (hsorted : SortedKeys es) (hbig : maxLeaf < es.length) (hle : es.length ≤ maxLeaf + 1)
    (hsplit : left ++ e :: right = es) (hhalf : left.length = es.length / 2) (key : K) :
    Grew maxLeaf maxBranch k v (new :: fresh) fresh t key
      (Grown.children key (.split (.leaf t.id new left) e.1
        (.leaf new t.toLeaf.next (e :: right)))) := by
  have hlen : left.length + (right.length + 1) = es.length := by
    rw [← hsplit, List.length_append, List.length_cons]
  have hentries : entriesOf (Grown.children key (.split (.leaf t.id new left) e.1
      (.leaf new t.toLeaf.next (e :: right)))) = es := by
    simpa only [Grown.children, entriesOf_cons, entriesOf_nil, Tree.entries_of_leaf,
      List.append_nil, Tree.toLeaf_leaf] using hsplit
  refine ⟨⟨_, _, rfl, rfl, ?_, by simp⟩, ?_, ?_, ?_, ?_, ?_, ?_, ?_, ?_, ?_⟩
  · intro x hx
    obtain rfl := List.mem_singleton.mp hx
    rfl
  · rw [hentries, Tree.entries_of_leaf]
    exact hperm
  · rw [hentries]
    exact hsorted
  · intro x hx
    rcases List.mem_pair.mp hx with rfl | rfl
    · show left ≠ []
      rw [← List.length_pos_iff]
      omega
    · exact List.cons_ne_nil e right
  · rintro start stop ⟨hstart, hstop⟩
    exact ⟨hstart, rfl, hstop⟩
  · intro x hx
    rcases List.mem_pair.mp hx with rfl | rfl
    · show left.length ≤ maxLeaf
      omega
    · show right.length + 1 ≤ maxLeaf
      omega
  · intro x hx
    rcases List.mem_pair.mp hx with rfl | rfl <;> trivial
  · intro _ x hx
    rcases List.mem_pair.mp hx with rfl | rfl
    · show (maxLeaf + 1) / 2 ≤ left.length
      omega
    · show (maxLeaf + 1) / 2 ≤ right.length + 1
      omega
  · intro c hc
    simp [Grown.children] at hc
  · exact ⟨[new], rfl, List.Perm.refl _⟩

end Leaves

/-- From a leaf to the leaf with the new entry, or to its two halves. -/
theorem insertLeaf_grew (hsort : Sorts sort) (hmax : 1 ≤ maxLeaf) {t : Tree I K V 0}
    {g : Grown (Tree I K V 0) K} (hfits : t.Fits maxLeaf maxBranch)
    (hins : insertLeaf sort maxLeaf t k v fresh = some (g, fresh')) (key : K) :
    Grew maxLeaf maxBranch k v fresh fresh' t key (g.children key) := by
  have hperm : (sort (t.toLeaf.entries ++ [(k, v)])).Perm ((k, v) :: t.toLeaf.entries) :=
    (hsort.perm _).trans (List.perm_append_singleton _ _)
  have hsorted := hsort.sorted (t.toLeaf.entries ++ [(k, v)])
  have hlen := hperm.length_eq
  have hold : t.toLeaf.entries.length ≤ maxLeaf := hfits
  rw [List.length_cons] at hlen
  unfold insertLeaf at hins
  generalize sort (t.toLeaf.entries ++ [(k, v)]) = es at *
  simp only at hins
  split at hins
  · next hle =>
      obtain ⟨rfl, rfl⟩ := Prod.mk.inj (Option.some.inj hins)
      exact grew_leaf hperm hsorted hle key
  next hbig =>
  split at hins
  · next new fresh₁ e right hdrop =>
      obtain ⟨rfl, rfl⟩ := Prod.mk.inj (Option.some.inj hins)
      have hsplit : es.take (es.length / 2) ++ e :: right = es := by
        rw [← hdrop]
        exact List.take_append_drop _ _
      have hhalf : (es.take (es.length / 2)).length = es.length / 2 := by
        rw [List.length_take]
        omega
      have hle : es.length ≤ maxLeaf + 1 := by omega
      exact grew_leaf_split hmax hperm hsorted (not_le.mp hbig) hle hsplit hhalf key
  · simp at hins

/-! ### Branches -/

/-- The children `cs` a branch `t` has after an insertion below one of them,
before the branch is split. -/
structure Level (maxLeaf maxBranch : ℕ) (k : K) (v : V) (fresh fresh' : List I)
    (t : Tree I K V (h + 1)) (cs : List (K × Tree I K V h)) : Prop where
  head : ∃ c rest, cs = (⊥, c) :: rest ∧ Keyed rest
  entries : (entriesOf cs).Perm ((k, v) :: t.entries)
  sorted : SortedKeys (entriesOf cs)
  separated : ∀ e ∈ cs, e.2.Separated
  linked : ∀ start stop, Linked start t.leaves stop →
    Linked start (cs.flatMap fun e => e.2.leaves) stop
  fits : ∀ e ∈ cs, e.2.Fits maxLeaf maxBranch
  filled : ∀ e ∈ cs, e.2.HalfFull maxLeaf maxBranch ∧ e.2.Filled maxLeaf maxBranch
  length_ge : t.children.length ≤ cs.length
  length_le : cs.length ≤ maxBranch + 1
  ids : ∃ used, fresh = used ++ fresh' ∧
    (t.id :: cs.flatMap fun e => e.2.ids).Perm (t.ids ++ used)

section Child

variable {t : Tree I K V (h + 1)} {pre post cs : List (K × Tree I K V h)} {e : K × Tree I K V h}

/-- The first child keeps its place, and the keys of the others are their
least ones. -/
theorem Grew.level_head (ht : t.Searchable) (hcut : cut k t.children = some (pre, e, post))
    (hg : Grew maxLeaf maxBranch k v fresh fresh' e.2 e.1 cs) :
    ∃ c rest, pre ++ (cs ++ post) = (⊥, c) :: rest ∧ Keyed rest := by
  obtain ⟨hc, hek, -, -, hbot, hkey, hkeyed⟩ := ht.cut_spec hcut
  obtain ⟨c, rest, rfl, -, hrest, -⟩ := hg.head
  have hcne : c.entries ≠ [] := (hg.separated (e.1, c) (by simp)).entries_ne_nil
  cases pre with
  | nil =>
      refine ⟨c, rest ++ post, ?_, ?_⟩
      · rw [hbot rfl]
        rfl
      · exact fun x hx => (List.mem_append.mp hx).elim (hrest x) (hkeyed x)
  | cons p pre =>
      obtain ⟨c₀, rest₀, hrest₀, hkeyed₀⟩ := ht.separated.branch.1
      rw [hc, List.cons_append, List.cons.injEq] at hrest₀
      obtain ⟨rfl, rfl⟩ := hrest₀
      refine ⟨c₀, pre ++ ((e.1, c) :: rest ++ post), rfl, ?_⟩
      intro x hx
      rcases List.mem_append.mp hx with hx | hx
      · exact hkeyed₀ x (List.mem_append_left _ hx)
      rcases List.mem_append.mp hx with hx | hx
      · rcases List.mem_cons.mp hx with rfl | hx
        · -- the child kept its least key, which is not above `k`
          have hleast := leastKey_of_perm (ht.child hc).sorted hg.sorted hg.entries
            (hkey (by simp)) hek
          rw [entriesOf_cons, leastKey_eq_of_append hcne] at hleast
          exact hleast
        · exact hrest x hx
      · exact hkeyed x hx

/-- The new key is on its side of every key of the other children. -/
theorem Grew.level_sorted (ht : t.Searchable) (hcut : cut k t.children = some (pre, e, post))
    (hg : Grew maxLeaf maxBranch k v fresh fresh' e.2 e.1 cs) :
    SortedKeys (entriesOf (pre ++ (cs ++ post))) := by
  obtain ⟨hc, -, hpre, hpost, -⟩ := ht.cut_spec hcut
  have hsortedAll := ht.sorted
  rw [Tree.entries_of_branch, hc, entriesOf_append, entriesOf_cons] at hsortedAll
  obtain ⟨hsortedPre, hsortedRight, hcross⟩ := sortedKeys_append.mp hsortedAll
  obtain ⟨-, hsortedPost, hcrossPost⟩ := sortedKeys_append.mp hsortedRight
  -- where an entry of the changed child is the new one, the cut gives its side
  have hnew : ∀ x ∈ entriesOf cs, x = (k, v) ∨ x ∈ e.2.entries :=
    fun x hx => List.mem_cons.mp (hg.entries.mem_iff.mp hx)
  rw [entriesOf_append, entriesOf_append]
  refine sortedKeys_append.mpr ⟨hsortedPre, sortedKeys_append.mpr
    ⟨hg.sorted, hsortedPost, ?_⟩, ?_⟩
  · intro a ha b hb
    rcases hnew a ha with rfl | ha
    · exact (hpost b hb).le
    · exact hcrossPost a ha b hb
  · intro a ha b hb
    rcases List.mem_append.mp hb with hb | hb
    · rcases hnew b hb with rfl | hb
      · exact hpre a ha
      · exact hcross a ha b (List.mem_append_left _ hb)
    · exact hcross a ha b (List.mem_append_right _ hb)

/-- From the child that changed to the children of its branch. -/
theorem Grew.level (ht : t.Searchable) (hfits : t.Fits maxLeaf maxBranch)
    (hfilled : t.Filled maxLeaf maxBranch) (hcut : cut k t.children = some (pre, e, post))
    (hg : Grew maxLeaf maxBranch k v fresh fresh' e.2 e.1 cs) :
    Level maxLeaf maxBranch k v fresh fresh' t (pre ++ (cs ++ post)) := by
  obtain ⟨hc, -⟩ := ht.cut_spec hcut
  obtain ⟨c, rest, hcs, -, -, hlen⟩ := hg.head
  have hcslen : cs.length = rest.length + 1 := by rw [hcs, List.length_cons]
  have hmem : ∀ x ∈ pre ++ (cs ++ post), x ∈ cs ∨ x ∈ t.children := by
    intro x hx
    rw [hc]
    simp only [List.mem_append, List.mem_cons] at hx ⊢
    tauto
  have hentries : (entriesOf (pre ++ (cs ++ post))).Perm ((k, v) :: t.entries) := by
    rw [Tree.entries_of_branch, hc]
    simp only [entriesOf_append, entriesOf_cons]
    refine (List.Perm.append_left _ ?_).trans List.perm_middle
    exact (hg.entries.append_right (entriesOf post)).trans (by simp)
  refine ⟨hg.level_head ht hcut, hentries, hg.level_sorted ht hcut, ?_, ?_, ?_, ?_, ?_, ?_, ?_⟩
  · intro x hx
    rcases hmem x hx with hx | hx
    · exact hg.separated x hx
    · exact ht.separated.branch.2 x hx
  · intro start stop hl
    have hl' : Linked start (t.children.flatMap fun e => e.2.leaves) stop := hl
    rw [hc, List.flatMap_append, List.flatMap_cons, linked_append] at hl'
    obtain ⟨mid, hl₁, hl₂⟩ := hl'
    obtain ⟨mid', hl₂, hl₃⟩ := linked_append.mp hl₂
    rw [List.flatMap_append, List.flatMap_append]
    exact linked_append.mpr ⟨mid, hl₁, linked_append.mpr ⟨mid', hg.linked mid mid' hl₂, hl₃⟩⟩
  · intro x hx
    rcases hmem x hx with hx | hx
    · exact hg.fits x hx
    · exact hfits.2 x hx
  · intro x hx
    rcases hmem x hx with hx | hx
    · exact ⟨hg.halfFull (Or.inl (hfilled e (by simp [hc])).1) x hx, hg.filled x hx⟩
    · exact hfilled x hx
  · rw [hc]
    simp only [List.length_append, List.length_cons]
    omega
  · have hle := hfits.1
    rw [hc] at hle
    simp only [List.length_append, List.length_cons] at hle ⊢
    omega
  · obtain ⟨used, hused, hids⟩ := hg.ids
    refine ⟨used, hused, ?_⟩
    rw [Tree.ids_of_branch, hc]
    show (t.id :: _).Perm (t.id :: (_ ++ used))
    apply List.Perm.cons _
    have hids' := hids.append_right (post.flatMap fun e => e.2.ids)
    simp only [List.flatMap_append, List.flatMap_cons, List.append_assoc] at hids' ⊢
    exact (hids'.trans (List.perm_append_comm.append_left _)).append_left _

end Child

/-- The branch takes all its children. -/
theorem Level.grew_fit {t : Tree I K V (h + 1)} {cs : List (K × Tree I K V h)} {fresh₁ : List I}
    (hl : Level maxLeaf maxBranch k v fresh fresh₁ t cs) (hfit : cs.length ≤ maxBranch) (key : K) :
    Grew maxLeaf maxBranch k v fresh fresh₁ t key
      (Grown.children key (.fit (.branch t.id cs))) where
  head := ⟨_, [], rfl, rfl, by simp [Keyed], by simp⟩
  entries := by
    simpa only [Grown.children, entriesOf_cons, entriesOf_nil, List.append_nil,
      Tree.entries_of_branch, Tree.children_branch] using hl.entries
  sorted := by
    simpa only [Grown.children, entriesOf_cons, entriesOf_nil, List.append_nil,
      Tree.entries_of_branch, Tree.children_branch] using hl.sorted
  separated := by
    intro x hx
    obtain rfl := List.mem_singleton.mp hx
    exact ⟨hl.head, hl.separated⟩
  linked := by
    intro start stop hlinked
    simpa [Grown.children, Tree.leaves] using hl.linked start stop hlinked
  fits := by
    intro x hx
    obtain rfl := List.mem_singleton.mp hx
    exact ⟨hfit, hl.fits⟩
  filled := by
    intro x hx
    obtain rfl := List.mem_singleton.mp hx
    exact hl.filled
  halfFull := by
    intro hhalf x hx
    obtain rfl := List.mem_singleton.mp hx
    have hhalf' : (maxBranch + 1) / 2 ≤ t.children.length := by
      rcases hhalf with hhalf | hlen
      · exact hhalf
      · simp [Grown.children] at hlen
    exact hhalf'.trans hl.length_ge
  size := by
    intro c hc
    obtain rfl : Tree.branch t.id cs = c := by simpa [Grown.children] using hc
    exact hl.length_ge
  ids := by
    obtain ⟨used, hused, hids⟩ := hl.ids
    refine ⟨used, hused, ?_⟩
    simpa only [Grown.children, List.flatMap_cons, List.flatMap_nil, List.append_nil,
      Tree.ids_of_branch, Tree.children_branch, Tree.id_branch] using hids

section Halves

variable {cs left right : List (K × Tree I K V h)} {e : K × Tree I K V h}

/-- What holds of every child holds in either half, whatever the first key of
the right one is. -/
theorem forall_halves {P : Tree I K V h → Prop} (hsplit : left ++ e :: right = cs)
    (hP : ∀ x ∈ cs, P x.2) :
    (∀ x ∈ left, P x.2) ∧ ∀ x ∈ ((⊥, e.2) :: right : List (K × Tree I K V h)), P x.2 := by
  subst hsplit
  refine ⟨fun x hx => hP x (List.mem_append_left _ hx), fun x hx => ?_⟩
  rcases List.mem_cons.mp hx with rfl | hx
  · exact hP e (List.mem_append_right _ List.mem_cons_self)
  · exact hP x (List.mem_append_right _ (List.mem_cons_of_mem _ hx))

theorem flatMap_halves {α : Type u} (hsplit : left ++ e :: right = cs)
    (f : Tree I K V h → List α) :
    left.flatMap (fun x => f x.2) ++
      (((⊥, e.2) :: right : List (K × Tree I K V h)).flatMap fun x => f x.2) =
      cs.flatMap fun x => f x.2 := by
  -- the key a child is listed under plays no part
  have hfirst : ((⊥, e.2) :: right : List (K × Tree I K V h)).flatMap (fun x => f x.2) =
      (e :: right).flatMap fun x => f x.2 := rfl
  rw [hfirst, ← List.flatMap_append, hsplit]

section Split

variable {t : Tree I K V (h + 1)} {fresh₁ : List I} {new : I}

/-- The first child stays on the left, so that those on the right keep their keys. -/
theorem Level.left_eq (hl : Level maxLeaf maxBranch k v fresh fresh₁ t cs)
    (hsplit : left ++ e :: right = cs) (hne : left ≠ []) :
    ∃ c left', left = (⊥, c) :: left' ∧ Keyed left' ∧ e.2.leastKey = some e.1 ∧ Keyed right := by
  obtain ⟨c, rest, hcs, hkeyed⟩ := hl.head
  obtain ⟨-, hkey, hright⟩ := keyed_split (hsplit.trans hcs) hkeyed
  cases left with
  | nil => exact absurd rfl hne
  | cons x left' =>
      rw [hcs, List.cons_append, List.cons.injEq] at hsplit
      obtain ⟨rfl, rfl⟩ := hsplit
      exact ⟨c, left', rfl, fun y hy => hkeyed y (List.mem_append_left _ hy), hkey hne, hright⟩

/-- The halves have the old identifiers, those used below them, and the new one. -/
theorem Level.ids_split (hl : Level maxLeaf maxBranch k v fresh (new :: fresh₁) t cs)
    (hsplit : left ++ e :: right = cs) (key : K) :
    ∃ used, fresh = used ++ fresh₁ ∧
      ((Grown.children key (.split (Tree.branch t.id left) e.1
        (.branch new ((⊥, e.2) :: right)))).flatMap fun e => e.2.ids).Perm (t.ids ++ used) := by
  obtain ⟨used, hused, hids⟩ := hl.ids
  refine ⟨used ++ [new], by simp [hused], ?_⟩
  rw [← flatMap_halves hsplit fun x => x.ids] at hids
  simp only [Grown.children, List.flatMap_cons, List.flatMap_nil, List.append_nil,
    Tree.ids_of_branch, Tree.children_branch, Tree.id_branch] at hids ⊢
  rw [← List.append_assoc]
  refine List.Perm.trans ?_ (hids.append_right [new])
  rw [List.cons_append, List.cons_append, List.append_assoc]
  refine List.Perm.cons _ (List.Perm.append_left _ ?_)
  exact (List.perm_append_singleton _ _).symm

/-- The branch is split, and the upper half goes to a new one. -/
theorem Level.grew_split (hmax : 2 ≤ maxBranch)
    (hl : Level maxLeaf maxBranch k v fresh (new :: fresh₁) t cs)
    (hbig : maxBranch < cs.length) (hsplit : left ++ e :: right = cs)
    (hhalf : left.length = cs.length / 2) (key : K) :
    Grew maxLeaf maxBranch k v fresh fresh₁ t key (Grown.children key
      (.split (.branch t.id left) e.1 (.branch new ((⊥, e.2) :: right)))) := by
  have hle := hl.length_le
  have hlen : left.length + (right.length + 1) = cs.length := by
    rw [← hsplit, List.length_append, List.length_cons]
  have hne : left ≠ [] := by
    rw [← List.length_pos_iff]
    omega
  obtain ⟨c, left', hleft, hkeyedLeft, hkey, hkeyedRight⟩ := hl.left_eq hsplit hne
  obtain ⟨hsepLeft, hsepRight⟩ := forall_halves hsplit hl.separated
  obtain ⟨hfitsLeft, hfitsRight⟩ := forall_halves hsplit hl.fits
  obtain ⟨hfillLeft, hfillRight⟩ := forall_halves
    (P := fun c => c.HalfFull maxLeaf maxBranch ∧ c.Filled maxLeaf maxBranch) hsplit hl.filled
  have hentries : entriesOf (Grown.children key (.split (.branch t.id left) e.1
      (.branch new ((⊥, e.2) :: right)))) = entriesOf cs := by
    simp only [Grown.children, entriesOf_cons, entriesOf_nil, Tree.entries_of_branch,
      List.append_nil, Tree.children_branch]
    exact flatMap_halves hsplit fun x => x.entries
  refine ⟨⟨_, _, rfl, rfl, ?_, by simp⟩, ?_, ?_, ?_, ?_, ?_, ?_, ?_, ?_, hl.ids_split hsplit key⟩
  · intro x hx
    obtain rfl := List.mem_singleton.mp hx
    have hsep : e.2.Separated := hsepRight (⊥, e.2) List.mem_cons_self
    rw [Tree.leastKey, Tree.entries_of_branch, Tree.children_branch, entriesOf_cons,
      leastKey_eq_of_append hsep.entries_ne_nil]
    exact hkey
  · rw [hentries]
    exact hl.entries
  · rw [hentries]
    exact hl.sorted
  · intro x hx
    rcases List.mem_pair.mp hx with rfl | rfl
    · exact ⟨⟨c, left', hleft, hkeyedLeft⟩, hsepLeft⟩
    · exact ⟨⟨e.2, right, rfl, hkeyedRight⟩, hsepRight⟩
  · intro start stop hlinked
    have hlinked' := hl.linked start stop hlinked
    rw [← flatMap_halves hsplit fun x => x.leaves] at hlinked'
    simpa only [Grown.children, List.flatMap_cons, List.flatMap_nil, List.append_nil,
      Tree.leaves_of_branch, Tree.children_branch] using hlinked'
  · intro x hx
    rcases List.mem_pair.mp hx with rfl | rfl
    · refine ⟨?_, hfitsLeft⟩
      show left.length ≤ maxBranch
      omega
    · refine ⟨?_, hfitsRight⟩
      show right.length + 1 ≤ maxBranch
      omega
  · intro x hx
    rcases List.mem_pair.mp hx with rfl | rfl
    · exact hfillLeft
    · exact hfillRight
  · intro _ x hx
    rcases List.mem_pair.mp hx with rfl | rfl
    · show (maxBranch + 1) / 2 ≤ left.length
      omega
    · show (maxBranch + 1) / 2 ≤ right.length + 1
      omega
  · intro c hc
    simp [Grown.children] at hc

end Split

end Halves

/-- From the children of a branch to the branch, or to its two halves. -/
theorem Level.grew {t : Tree I K V (h + 1)} {cs : List (K × Tree I K V h)}
    {fresh₁ : List I} {g : Grown (Tree I K V (h + 1)) K} (hmax : 2 ≤ maxBranch)
    (hl : Level maxLeaf maxBranch k v fresh fresh₁ t cs)
    (hgraft : graft maxBranch t.id cs fresh₁ = some (g, fresh')) (key : K) :
    Grew maxLeaf maxBranch k v fresh fresh' t key (g.children key) := by
  unfold graft at hgraft
  split at hgraft
  · next hfit =>
      obtain ⟨rfl, rfl⟩ := Prod.mk.inj (Option.some.inj hgraft)
      exact hl.grew_fit hfit key
  next hbig =>
  split at hgraft
  · next new fresh₂ e right hdrop =>
      obtain ⟨rfl, rfl⟩ := Prod.mk.inj (Option.some.inj hgraft)
      have hsplit : cs.take (cs.length / 2) ++ e :: right = cs := by
        rw [← hdrop]
        exact List.take_append_drop _ _
      have hhalf : (cs.take (cs.length / 2)).length = cs.length / 2 := by
        rw [List.length_take]
        omega
      exact hl.grew_split hmax (not_le.mp hbig) hsplit hhalf key
  · simp at hgraft

/-- **What an insertion does** to a tree that can be searched, whose nodes
are neither too large nor, below the root, too small. -/
theorem Tree.insert_grew (hsort : Sorts sort) (hleaf : 1 ≤ maxLeaf) (hbranch : 2 ≤ maxBranch) :
    ∀ {h : ℕ} {t : Tree I K V h} {g : Grown (Tree I K V h) K} {fresh fresh' : List I},
      t.Searchable → t.Fits maxLeaf maxBranch → t.Filled maxLeaf maxBranch →
      t.insert sort maxLeaf maxBranch k v fresh = some (g, fresh') →
      ∀ key, Grew maxLeaf maxBranch k v fresh fresh' t key (g.children key)
  | 0, _, _, _, _, _, hfits, _, hins, key => insertLeaf_grew hsort hleaf hfits hins key
  | h + 1, t, g, fresh, fresh', ht, hfits, hfilled, hins, key => by
      rw [Tree.insert] at hins
      split at hins
      · simp at hins
      next pre e post hcut =>
      split at hins
      · simp at hins
      next g' fresh₁ hins' =>
      obtain ⟨hc, -⟩ := ht.cut_spec hcut
      have he : e ∈ t.children := by simp [hc]
      have hg := Tree.insert_grew hsort hleaf hbranch (ht.child hc) (hfits.2 e he)
        (hfilled e he).2 hins' e.1
      exact (hg.level ht hfits hfilled hcut).grew hbranch hins key

end Insert

end StorageEngine.Lib.BPlus
