import StorageEngine.Lib.BPlusGrowth

/-!
The nodes an insertion writes.

The new entry goes to the leaf at the end of the search path of its key, and
from there a split carries on like the carry of a counter: up through the
nodes that are full, one new node for each, to the first node with room.
`upTo` is this part of the path. `Written` says of a whole insertion which
nodes it changed and how many identifiers it used.
-/

namespace StorageEngine.Lib.BPlus

universe u

variable {I K V : Type u}

/-! ### Up to the first that fails -/

section UpTo

variable {α : Type*} {p : α → Bool} {xs : List α} {x y : α}

/-- The elements up to the first that fails `p`, which is one of them. -/
def upTo (p : α → Bool) : List α → List α
  | [] => []
  | x :: xs => x :: if p x then upTo p xs else []

theorem mem_upTo :
    x ∈ upTo p xs ↔ x ∈ xs.takeWhile p ∨ (xs.dropWhile p).head? = some x := by
  induction xs with
  | nil => simp [upTo]
  | cons y ys ih =>
      cases hy : p y with
      | true => simp [upTo, hy, ih, or_assoc]
      | false => simp [upTo, hy, eq_comm]

theorem upTo_subset (p : α → Bool) (xs : List α) : upTo p xs ⊆ xs := by
  intro x hx
  rcases mem_upTo.mp hx with hx | hx
  · exact (List.takeWhile_sublist p).subset hx
  · exact (List.dropWhile_sublist p).subset (List.mem_of_mem_head? hx)

theorem upTo_eq_self (hall : ∀ x ∈ xs, p x = true) : upTo p xs = xs := by
  induction xs with
  | nil => rfl
  | cons x xs ih =>
      rw [upTo, if_pos (hall x List.mem_cons_self),
        ih fun z hz => hall z (List.mem_cons_of_mem x hz)]

theorem upTo_append_of_pos (hall : ∀ x ∈ xs, p x = true) : upTo p (xs ++ [y]) = xs ++ [y] := by
  induction xs with
  | nil => simp [upTo]
  | cons x xs ih =>
      rw [List.cons_append, upTo, if_pos (hall x List.mem_cons_self),
        ih fun z hz => hall z (List.mem_cons_of_mem x hz)]

theorem upTo_append_of_neg (hx : x ∈ xs) (hfail : p x = false) :
    upTo p (xs ++ [y]) = upTo p xs ∧ (xs ++ [y]).takeWhile p = xs.takeWhile p := by
  induction xs with
  | nil => simp at hx
  | cons z xs ih =>
      rw [List.cons_append, upTo, upTo, List.takeWhile_cons, List.takeWhile_cons]
      cases hz : p z with
      | false => simp
      | true =>
          rcases List.mem_cons.mp hx with rfl | hx
          · simp [hfail] at hz
          obtain ⟨hupTo, htake⟩ := ih hx
          simp only [if_true, hupTo, htake, and_self]

theorem length_takeWhile_append_le {ys : List α} :
    (xs.takeWhile p).length ≤ ((xs ++ ys).takeWhile p).length := by
  rw [List.takeWhile_append]
  split
  · next hall =>
      rw [hall, List.length_append]
      exact Nat.le_add_right _ _
  · exact le_rfl

/-- The last element passes `p` with those before it only if all do. -/
theorem getLast_mem_takeWhile (hnodup : xs.Nodup) (hlast : xs.getLast? = some y) :
    y ∈ xs.takeWhile p ↔ ∀ x ∈ xs, p x = true := by
  refine ⟨fun hy => ?_, fun hall => ?_⟩
  · rw [← List.dropWhile_eq_nil_iff]
    by_contra hne
    have hlast' : (xs.dropWhile p).getLast? = some y := by
      rw [← hlast]
      nth_rewrite 2 [← List.takeWhile_append_dropWhile (p := p) (l := xs)]
      exact (List.getLast?_append_of_ne_nil _ hne).symm
    rw [← List.takeWhile_append_dropWhile (p := p) (l := xs)] at hnodup
    exact List.disjoint_of_nodup_append hnodup hy (List.mem_of_getLast? hlast')
  · rw [List.takeWhile_eq_self_iff.mpr hall]
    exact List.mem_of_getLast? hlast

theorem upTo_map {β : Type*} (f : α → β) {q : β → Bool} (hq : ∀ x ∈ xs, q (f x) = p x) :
    upTo q (xs.map f) = (upTo p xs).map f ∧ (xs.map f).takeWhile q = (xs.takeWhile p).map f := by
  induction xs with
  | nil => exact ⟨rfl, rfl⟩
  | cons x xs ih =>
      obtain ⟨hupTo, htake⟩ := ih fun y hy => hq y (List.mem_cons_of_mem x hy)
      rw [List.map_cons, upTo, upTo, List.takeWhile_cons, List.takeWhile_cons,
        hq x List.mem_cons_self, hupTo, htake]
      cases p x <;> exact ⟨rfl, rfl⟩

end UpTo

/-! ### Paths -/

/-- A node that is split when it gets one more entry. -/
def full (maxLeaf maxBranch : ℕ) : I × Node I K V → Bool
  | (_, .leaf _ es) => maxLeaf ≤ es.length
  | (_, .branch es) => maxBranch ≤ es.length

/-- The root as one of the nodes. -/
def Tree.node : {h : ℕ} → Tree I K V h → Node I K V
  | 0, t => .leaf t.toLeaf.next t.toLeaf.entries
  | _ + 1, t => .branch (t.children.map fun e => (e.1, e.2.id))

/-- The nodes a search for `k` comes by, the leaf first. -/
def Tree.path [LinearOrder K] (k : K) : {h : ℕ} → Tree I K V h → List (I × Node I K V)
  | 0, t => [(t.id, t.node)]
  | _ + 1, t =>
      match cut k t.children with
      | none => [(t.id, t.node)]
      | some (_, e, _) => e.2.path k ++ [(t.id, t.node)]

/-- The nodes in the place of one that has changed. -/
def Grown.nodes {h : ℕ} : Grown (Tree I K V h) K → List (I × Node I K V)
  | .fit t => t.nodes
  | .split l _ r => l.nodes ++ r.nodes

def Grown.isSplit {T : Type u} : Grown T K → Bool
  | .fit _ => false
  | .split _ _ _ => true

theorem Tree.node_mem_nodes : ∀ {h : ℕ} (t : Tree I K V h), (t.id, t.node) ∈ t.nodes
  | 0, _ => List.mem_singleton.mpr rfl
  | _ + 1, _ => List.mem_cons_self

section Path

variable [LinearOrder K] {maxLeaf maxBranch : ℕ} {h : ℕ} {k : K} {v : V} {fresh fresh' : List I}

theorem Tree.path_of_cut {t : Tree I K V (h + 1)} {pre post : List (K × Tree I K V h)}
    {e : K × Tree I K V h} (hcut : cut k t.children = some (pre, e, post)) :
    t.path k = e.2.path k ++ [(t.id, t.node)] := by
  rw [Tree.path, hcut]

theorem Tree.path_subset : ∀ {h : ℕ} (t : Tree I K V h), t.path k ⊆ t.nodes
  | 0, _ => List.Subset.refl _
  | h + 1, t => by
      intro x hx
      rw [Tree.path] at hx
      split at hx
      · rw [List.mem_singleton.mp hx]
        exact Tree.node_mem_nodes t
      next pre e post hcut =>
      obtain ⟨hc, -⟩ := cut_eq_some hcut
      rcases List.mem_append.mp hx with hx | hx
      · exact List.mem_cons_of_mem _
          (List.mem_flatMap.mpr ⟨e, by simp [hc], Tree.path_subset e.2 hx⟩)
      · rw [List.mem_singleton.mp hx]
        exact Tree.node_mem_nodes t

theorem Tree.length_path_le : ∀ {h : ℕ} (t : Tree I K V h), (t.path k).length ≤ h + 1
  | 0, _ => le_rfl
  | h + 1, t => by
      rw [Tree.path]
      split
      · simp
      next pre e post hcut =>
      rw [List.length_append, List.length_singleton]
      exact Nat.succ_le_succ (Tree.length_path_le e.2)

/-- The path starts with a leaf. -/
theorem Tree.head?_path [OrderBot K] : ∀ {h : ℕ} {t : Tree I K V h}, t.Separated →
    ∃ i next es, (t.path k).head? = some (i, .leaf next es)
  | 0, _, _ => ⟨_, _, _, rfl⟩
  | h + 1, t, hs => by
      obtain ⟨pre, e, post, hcut⟩ := hs.exists_cut k
      obtain ⟨hc, -⟩ := cut_eq_some hcut
      obtain ⟨i, next, es, hhead⟩ := Tree.head?_path (hs.branch.2 e (by simp [hc]))
      refine ⟨i, next, es, ?_⟩
      rw [Tree.path_of_cut hcut, List.head?_append, hhead]
      rfl

theorem Tree.nodup_path : ∀ {h : ℕ} {t : Tree I K V h}, t.ids.Nodup →
    ((t.path k).map Prod.fst).Nodup
  | 0, _, hnodup => hnodup
  | h + 1, t, hnodup => by
      rw [Tree.path]
      split
      · exact List.nodup_singleton t.id
      next pre e post hcut =>
      obtain ⟨hc, -⟩ := cut_eq_some hcut
      obtain ⟨hchild, hid, -⟩ := ids_of_cut hnodup hc
      rw [List.map_append]
      refine (Tree.nodup_path hchild).append (List.nodup_singleton t.id) fun i hi hroot => ?_
      obtain rfl : i = t.id := List.mem_singleton.mp hroot
      exact hid (List.map_subset _ (Tree.path_subset e.2) hi)

/-- The path ends in the root. -/
theorem Tree.getLast?_path : ∀ {h : ℕ} (t : Tree I K V h),
    (t.path k).getLast? = some (t.id, t.node)
  | 0, _ => rfl
  | h + 1, t => by
      rw [Tree.path]
      split
      · rfl
      · exact List.getLast?_concat

end Path

/-! ### What an insertion writes -/

section Written

variable {maxLeaf maxBranch : ℕ} {h : ℕ} {k : K} {v : V} {fresh fresh' : List I}

/-- An insertion below the nodes of `path`, which used up identifiers: it
changed the path up to the first node with room, took one identifier for each
full node before that, and split the last node of the path if all were full. -/
structure Written (maxLeaf maxBranch : ℕ) (path : List (I × Node I K V)) (fresh fresh' : List I)
    (g : Grown (Tree I K V h) K) : Prop where
  isSplit : g.isSplit = path.all (full maxLeaf maxBranch)
  length_fresh : fresh.length = fresh'.length + (path.takeWhile (full maxLeaf maxBranch)).length
  changed : ∀ x ∈ upTo (full maxLeaf maxBranch) path, ∃ n, (x.1, n) ∈ g.nodes ∧ n ≠ x.2

/-- The insertion has no result for want of identifiers only. -/
def Writes (maxLeaf maxBranch : ℕ) (path : List (I × Node I K V)) (fresh : List I) :
    Option (Grown (Tree I K V h) K × List I) → Prop
  | none => fresh.length < (path.takeWhile (full maxLeaf maxBranch)).length
  | some (g, fresh') => Written maxLeaf maxBranch path fresh fresh' g

variable {sort : List (K × V) → List (K × V)}

theorem insertLeaf_writes (hperm : ∀ es, (sort es).Perm es) {t : Tree I K V 0}
    (hnext : t.toLeaf.next ∉ fresh) : Writes maxLeaf maxBranch [(t.id, t.node)] fresh
      (insertLeaf sort maxLeaf t k v fresh) := by
  have hlen : (sort (t.toLeaf.entries ++ [(k, v)])).length = t.toLeaf.entries.length + 1 := by
    rw [(hperm _).length_eq, List.length_append, List.length_singleton]
  by_cases hle : (sort (t.toLeaf.entries ++ [(k, v)])).length ≤ maxLeaf
  · have hroom : full maxLeaf maxBranch (t.id, t.node) = false := by
      rw [hlen] at hle
      simpa [full, Tree.node] using hle
    rw [insertLeaf_of_length_le hle]
    refine ⟨?_, ?_, ?_⟩
    · simp [Grown.isSplit, hroom]
    · simp [hroom]
    · intro x hx
      obtain rfl : x = (t.id, t.node) := by simpa [upTo, hroom] using hx
      refine ⟨_, List.mem_singleton.mpr rfl, fun heq => ?_⟩
      have hsame := congrArg List.length (Node.leaf.inj heq).2
      rw [Tree.toLeaf_leaf, hlen] at hsame
      omega
  · have hfull : full maxLeaf maxBranch (t.id, t.node) = true := by
      rw [hlen] at hle
      simpa [full, Tree.node, Nat.lt_succ_iff] using hle
    cases fresh with
    | nil =>
        rw [insertLeaf_of_nil (not_le.mp hle)]
        simp [Writes, hfull]
    | cons new fresh =>
        obtain ⟨e, right, hdrop⟩ :=
          List.exists_cons_of_ne_nil (drop_half_ne_nil (Nat.zero_lt_of_lt (not_le.mp hle)))
        rw [insertLeaf_of_lt (not_le.mp hle) hdrop]
        refine ⟨?_, ?_, ?_⟩
        · simp [Grown.isSplit, hfull]
        · simp [hfull]
        · intro x hx
          obtain rfl : x = (t.id, t.node) := by simpa [upTo, hfull] using hx
          -- the next leaf is the new one, which the leaf has not been linked to
          refine ⟨_, List.mem_append_left _ (List.mem_singleton.mpr rfl), fun heq => ?_⟩
          apply hnext
          rw [← (Node.leaf.inj heq).1]
          exact List.mem_cons_self

variable [LinearOrder K] [OrderBot K]

/-- The nodes below a branch are still there when it is split. -/
theorem graft_nodes {id : I} {cs : List (K × Tree I K V h)} {g : Grown (Tree I K V (h + 1)) K}
    (hgraft : graft maxBranch id cs fresh = some (g, fresh')) {x : I × Node I K V}
    (hx : x ∈ cs.flatMap fun e => e.2.nodes) : x ∈ g.nodes := by
  unfold graft at hgraft
  split at hgraft
  · obtain ⟨rfl, -⟩ := Prod.mk.inj (Option.some.inj hgraft)
    exact List.mem_cons_of_mem _ hx
  split at hgraft
  · next new fresh₁ e right hdrop =>
      obtain ⟨rfl, -⟩ := Prod.mk.inj (Option.some.inj hgraft)
      have hsplit : cs.take (cs.length / 2) ++ e :: right = cs := by
        rw [← hdrop]
        exact List.take_append_drop _ _
      rw [← flatMap_halves hsplit fun c => c.nodes] at hx
      rcases List.mem_append.mp hx with hx | hx
      · exact List.mem_append_left _ (List.mem_cons_of_mem _ hx)
      · exact List.mem_append_right _ (List.mem_cons_of_mem _ hx)
  · simp at hgraft

omit [LinearOrder K] [OrderBot K] in
theorem Grown.mem_flatMap_children {g : Grown (Tree I K V h) K} {x : I × Node I K V}
    (hx : x ∈ g.nodes) (key : K) (pre post : List (K × Tree I K V h)) :
    x ∈ (pre ++ (g.children key ++ post)).flatMap fun e => e.2.nodes := by
  have hchildren : x ∈ (g.children key).flatMap fun e => e.2.nodes := by
    cases g with
    | fit t => simpa [Grown.children, Grown.nodes] using hx
    | split l s r => simpa [Grown.children, Grown.nodes] using hx
  rw [List.flatMap_append, List.flatMap_append]
  exact List.mem_append_right _ (List.mem_append_left _ hchildren)

omit [LinearOrder K] [OrderBot K] in
/-- A branch with another number of children is another node. -/
theorem branch_ne {t : Tree I K V (h + 1)} {cs : List (K × Tree I K V h)}
    (hlen : cs.length ≠ t.children.length) : (Tree.branch t.id cs).node ≠ t.node := by
  intro heq
  have hsame := congrArg List.length (Node.branch.inj heq)
  rw [List.length_map, List.length_map] at hsame
  exact hlen hsame

section Child

variable {t : Tree I K V (h + 1)} {pre post cs : List (K × Tree I K V h)}
  {e : K × Tree I K V h} {path : List (I × Node I K V)} {c : Tree I K V h}
  {g : Grown (Tree I K V h) K} {g' : Grown (Tree I K V (h + 1)) K} {fresh₁ : List I}

/-- Below the branch a node had room, so that the branch stays as it is. -/
theorem Written.graft_fit (hc : t.children = pre ++ e :: post) (hle : t.children.length ≤ maxBranch)
    (hw : Written maxLeaf maxBranch path fresh fresh₁ (.fit c)) :
    Writes maxLeaf maxBranch (path ++ [(t.id, t.node)]) fresh
      (graft maxBranch t.id (pre ++ (Grown.children e.1 (.fit c) ++ post)) fresh₁) := by
  have hlen : (pre ++ (Grown.children e.1 (.fit c) ++ post)).length ≤ maxBranch := by
    rw [hc] at hle
    simpa [Grown.children] using hle
  have hsome : path.all (full maxLeaf maxBranch) = false := hw.isSplit.symm
  obtain ⟨y, hy, hroom⟩ : ∃ y ∈ path, full maxLeaf maxBranch y = false := by simpa using hsome
  obtain ⟨hupTo, htake⟩ := upTo_append_of_neg (y := (t.id, t.node)) hy hroom
  have hgraft : BPlus.graft maxBranch t.id _ fresh₁ = _ := graft_of_length_le hlen
  rw [hgraft]
  refine ⟨?_, ?_, ?_⟩
  · rw [List.all_append, hsome]
    rfl
  · rw [htake]
    exact hw.length_fresh
  · intro x hx
    rw [hupTo] at hx
    obtain ⟨n, hn, hne⟩ := hw.changed x hx
    exact ⟨n, graft_nodes hgraft (Grown.mem_flatMap_children hn e.1 pre post), hne⟩

/-- If all nodes below the branch were full, it depends on the branch alone
whether it is split and takes one more identifier. -/
theorem Written.graft (hall : ∀ x ∈ path, full maxLeaf maxBranch x = true)
    (hw : Written maxLeaf maxBranch path fresh fresh₁ g)
    (hnodes : ∀ x ∈ g.nodes, x ∈ cs.flatMap fun e => e.2.nodes)
    (hgraft : BPlus.graft maxBranch t.id cs fresh₁ = some (g', fresh'))
    (hsplit : g'.isSplit = full maxLeaf maxBranch (t.id, t.node))
    (hlen : fresh₁.length = fresh'.length + g'.isSplit.toNat)
    (hroot : ∃ n, (t.id, n) ∈ g'.nodes ∧ n ≠ t.node) :
    Written maxLeaf maxBranch (path ++ [(t.id, t.node)]) fresh fresh' g' := by
  have hbelow := hw.length_fresh
  have hchanged := hw.changed
  rw [List.takeWhile_eq_self_iff.mpr hall] at hbelow
  rw [upTo_eq_self hall] at hchanged
  refine ⟨?_, ?_, ?_⟩
  · rw [List.all_append, List.all_eq_true.mpr hall, hsplit]
    simp
  · have hone : ([(t.id, t.node)].takeWhile (full maxLeaf maxBranch)).length =
        (full maxLeaf maxBranch (t.id, t.node)).toNat := by
      cases hfull : full maxLeaf maxBranch (t.id, t.node) <;> simp [hfull]
    rw [List.takeWhile_append_of_pos hall, List.length_append, hone, ← hsplit]
    omega
  · rw [upTo_append_of_pos hall]
    intro x hx
    rcases List.mem_append.mp hx with hx | hx
    · obtain ⟨n, hn, hne⟩ := hchanged x hx
      exact ⟨n, graft_nodes hgraft (hnodes _ hn), hne⟩
    · rw [List.mem_singleton.mp hx]
      exact hroot

/-- All nodes below the branch were full, so that it gets one more entry. -/
theorem Written.graft_split {l r : Tree I K V h} {s : K} (hbranch : 2 ≤ maxBranch)
    (hc : t.children = pre ++ e :: post) (hle : t.children.length ≤ maxBranch)
    (hw : Written maxLeaf maxBranch path fresh fresh₁ (.split l s r)) :
    Writes maxLeaf maxBranch (path ++ [(t.id, t.node)]) fresh
      (BPlus.graft maxBranch t.id (pre ++ (Grown.children e.1 (.split l s r) ++ post)) fresh₁) := by
  have hlen : (pre ++ (Grown.children e.1 (.split l s r) ++ post)).length =
      t.children.length + 1 := by
    rw [hc]
    simp only [Grown.children, List.length_append, List.length_cons, List.length_nil]
    omega
  have hall := List.all_eq_true.mp hw.isSplit.symm
  have hnodes : ∀ x ∈ (Grown.split l s r).nodes, x ∈
      (pre ++ (Grown.children e.1 (.split l s r) ++ post)).flatMap fun e => e.2.nodes :=
    fun x hx => Grown.mem_flatMap_children hx e.1 pre post
  generalize pre ++ (Grown.children e.1 (.split l s r) ++ post) = cs at *
  have hfull : full maxLeaf maxBranch (t.id, t.node) = decide (maxBranch < cs.length) := by
    simp only [full, Tree.node, List.length_map, hlen, Nat.lt_succ_iff]
  by_cases hroom : cs.length ≤ maxBranch
  · rw [decide_eq_false (not_lt.mpr hroom)] at hfull
    have hgraft : BPlus.graft maxBranch t.id cs fresh₁ = _ := graft_of_length_le hroom
    rw [hgraft]
    refine hw.graft hall hnodes hgraft hfull.symm rfl
      ⟨_, Tree.node_mem_nodes (Tree.branch t.id cs), branch_ne ?_⟩
    omega
  · rw [decide_eq_true (not_le.mp hroom)] at hfull
    cases fresh₁ with
    | nil =>
        have hbelow := hw.length_fresh
        rw [graft_of_nil (not_le.mp hroom)]
        show fresh.length < _
        rw [List.takeWhile_append_of_pos hall, hbelow, List.takeWhile_eq_self_iff.mpr hall]
        simp [hfull]
    | cons new fresh₂ =>
        obtain ⟨e', right, hdrop⟩ :=
          List.exists_cons_of_ne_nil (drop_half_ne_nil (Nat.zero_lt_of_lt (not_le.mp hroom)))
        have hgraft : BPlus.graft maxBranch t.id cs (new :: fresh₂) = _ :=
          graft_of_lt (not_le.mp hroom) hdrop
        rw [hgraft]
        refine hw.graft hall hnodes hgraft hfull.symm rfl
          ⟨_, List.mem_append_left _ (Tree.node_mem_nodes (Tree.branch t.id _)), branch_ne ?_⟩
        rw [List.length_take]
        omega

end Child

/-- **What an insertion writes**: the path of its key, up to the first node
with room. -/
theorem Tree.insert_writes (hperm : ∀ es, (sort es).Perm es) (hbranch : 2 ≤ maxBranch) :
    ∀ {h : ℕ} {t : Tree I K V h} {fresh : List I}, t.Separated → t.Fits maxLeaf maxBranch →
      (∀ l ∈ t.leaves, l.next ∉ fresh) →
      Writes maxLeaf maxBranch (t.path k) fresh (t.insert sort maxLeaf maxBranch k v fresh)
  | 0, t, _, _, _, hnext => insertLeaf_writes hperm (hnext t.toLeaf List.mem_cons_self)
  | h + 1, t, fresh, hs, hfits, hnext => by
      obtain ⟨-, hall⟩ := hs.branch
      obtain ⟨pre, e, post, hcut⟩ := hs.exists_cut k
      obtain ⟨hc, -⟩ := cut_eq_some hcut
      have he : e ∈ t.children := by simp [hc]
      have hnextChild : ∀ l ∈ e.2.leaves, l.next ∉ fresh :=
        fun l hl => hnext l (List.mem_flatMap.mpr ⟨e, he, hl⟩)
      have hih := Tree.insert_writes hperm hbranch (hall e he) (hfits.2 e he) hnextChild
      rw [Tree.path_of_cut hcut, Tree.insert, hcut]
      simp only
      cases hins : e.2.insert sort maxLeaf maxBranch k v fresh with
      | none =>
          rw [hins] at hih
          exact lt_of_lt_of_le hih length_takeWhile_append_le
      | some out =>
          obtain ⟨g, fresh₁⟩ := out
          rw [hins] at hih
          cases g with
          | fit c => exact Written.graft_fit hc hfits.1 hih
          | split l s r => exact Written.graft_split hbranch hc hfits.1 hih

end Written

/-! ### What follows for the nodes and for the identifiers -/

section Outcome

variable [LinearOrder K] {maxLeaf maxBranch : ℕ} {h : ℕ} {k : K} {fresh fresh' : List I}

/-- The identifiers of the nodes an insertion of `k` writes. -/
def Tree.written (maxLeaf maxBranch : ℕ) (k : K) (t : Tree I K V h) : List I :=
  (upTo (full maxLeaf maxBranch) (t.path k)).map Prod.fst

theorem Tree.written_subset (t : Tree I K V h) : t.written maxLeaf maxBranch k ⊆ t.ids :=
  List.map_subset _ fun _ hx => t.path_subset (upTo_subset _ _ hx)

theorem Tree.written_of_leaf (t : Tree I K V 0) : t.written maxLeaf maxBranch k = [t.id] := by
  show (upTo (full maxLeaf maxBranch) [(t.id, t.node)]).map Prod.fst = [t.id]
  simp [upTo]

section Child

variable {t : Tree I K V (h + 1)} {pre post : List (K × Tree I K V h)} {e : K × Tree I K V h}
  {c l r : Tree I K V h} {s : K}

theorem Tree.written_of_fit (hcut : cut k t.children = some (pre, e, post))
    (hw : Written maxLeaf maxBranch (e.2.path k) fresh fresh' (.fit c)) :
    t.written maxLeaf maxBranch k = e.2.written maxLeaf maxBranch k := by
  have hsome : (e.2.path k).all (full maxLeaf maxBranch) = false := hw.isSplit.symm
  obtain ⟨y, hy, hroom⟩ : ∃ y ∈ e.2.path k, full maxLeaf maxBranch y = false := by
    simpa using hsome
  rw [Tree.written, Tree.path_of_cut hcut, (upTo_append_of_neg hy hroom).1]
  rfl

theorem Tree.written_of_split (hcut : cut k t.children = some (pre, e, post))
    (hw : Written maxLeaf maxBranch (e.2.path k) fresh fresh' (.split l s r)) :
    t.written maxLeaf maxBranch k = e.2.written maxLeaf maxBranch k ++ [t.id] := by
  have hall := List.all_eq_true.mp hw.isSplit.symm
  rw [Tree.written, Tree.written, Tree.path_of_cut hcut, upTo_append_of_pos hall,
    upTo_eq_self hall, List.map_append]
  rfl

end Child

section Root

variable {t : Tree I K V h} {g : Grown (Tree I K V h) K}

/-- A node with room is not split. -/
theorem Written.not_room {l r : Tree I K V h} {s : K}
    (hw : Written maxLeaf maxBranch (t.path k) fresh fresh' (.split l s r)) :
    ¬t.Room maxLeaf maxBranch := by
  intro hroom
  have hfull := List.all_eq_true.mp hw.isSplit.symm _ (List.mem_of_getLast? t.getLast?_path)
  cases h with
  | zero =>
      have hle : maxLeaf ≤ t.toLeaf.entries.length := of_decide_eq_true hfull
      exact absurd hroom (not_lt.mpr hle)
  | succ h =>
      have hle : maxBranch ≤ (t.children.map fun e => (e.1, e.2.id)).length :=
        of_decide_eq_true hfull
      rw [List.length_map] at hle
      exact absurd hroom (not_lt.mpr hle)

/-- An insertion takes at most one identifier for each level. -/
theorem Written.length_fresh_le (hw : Written maxLeaf maxBranch (t.path k) fresh fresh' g) :
    fresh.length ≤ fresh'.length + (h + 1) := by
  have hsplits := (List.takeWhile_sublist (full maxLeaf maxBranch) (l := t.path k)).length_le
  have hpath := t.length_path_le (k := k)
  have hlen := hw.length_fresh
  omega

/-- Without a result the identifiers do not last for all levels. -/
theorem Writes.length_fresh_le
    (hw : Writes maxLeaf maxBranch (t.path k) fresh
      (none : Option (Grown (Tree I K V h) K × List I))) : fresh.length ≤ h := by
  have hsplits := (List.takeWhile_sublist (full maxLeaf maxBranch) (l := t.path k)).length_le
  have hpath := t.length_path_le (k := k)
  have hlen : fresh.length < _ := hw
  omega

end Root

end Outcome

end StorageEngine.Lib.BPlus
