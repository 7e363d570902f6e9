import Mathlib

/-!
B+Trees over any linearly ordered keys, values and node identifiers.

A tree of height `h + 1` has trees of height `h` as children, so that all
leaves are at the same depth by construction. Keys may be repeated. A child
is listed under the least key below it, except the leftmost, which is listed
under `⊥`: with the sorted entries this is all there is to the search order.
-/

namespace StorageEngine.Lib.BPlus

universe u

variable {I K V : Type u}

structure Leaf (I K V : Type u) where
  id : I
  next : I
  entries : List (K × V)

structure Branch (I K T : Type u) where
  id : I
  children : List (K × T)

/-- The trees of one height. -/
def Tree (I K V : Type u) : ℕ → Type u
  | 0 => Leaf I K V
  | h + 1 => Branch I K (Tree I K V h)

/-- What a node keeps about itself: a leaf its entries, a branch the
identifiers of its children. -/
inductive Node (I K V : Type u)
  | leaf (next : I) (entries : List (K × V))
  | branch (entries : List (K × I))

namespace Tree

variable {h : ℕ}

def leaf (id next : I) (entries : List (K × V)) : Tree I K V 0 :=
  Leaf.mk id next entries

def branch (id : I) (children : List (K × Tree I K V h)) : Tree I K V (h + 1) :=
  Branch.mk id children

def toLeaf (t : Tree I K V 0) : Leaf I K V := t

def children (t : Tree I K V (h + 1)) : List (K × Tree I K V h) := Branch.children t

def id : {h : ℕ} → Tree I K V h → I
  | 0, t => t.toLeaf.id
  | _ + 1, t => Branch.id t

@[simp] theorem toLeaf_leaf (id next : I) (entries : List (K × V)) :
    (leaf id next entries).toLeaf = ⟨id, next, entries⟩ := rfl

@[simp] theorem children_branch (id : I) (children : List (K × Tree I K V h)) :
    (branch id children).children = children := rfl

@[simp] theorem id_leaf (id next : I) (entries : List (K × V)) :
    (leaf id next entries).id = id := rfl

@[simp] theorem id_branch (id : I) (children : List (K × Tree I K V h)) :
    (branch id children).id = id := rfl

/-- The leaves from left to right. -/
def leaves : {h : ℕ} → Tree I K V h → List (Leaf I K V)
  | 0, t => [t.toLeaf]
  | _ + 1, t => t.children.flatMap fun e => leaves e.2

/-- The nodes with their identifiers. -/
def nodes : {h : ℕ} → Tree I K V h → List (I × Node I K V)
  | 0, t => [(t.id, .leaf t.toLeaf.next t.toLeaf.entries)]
  | _ + 1, t => (t.id, .branch (t.children.map fun e => (e.1, e.2.id))) ::
      t.children.flatMap fun e => nodes e.2

def entries {h : ℕ} (t : Tree I K V h) : List (K × V) := t.leaves.flatMap Leaf.entries

def ids {h : ℕ} (t : Tree I K V h) : List I := t.nodes.map Prod.fst

/-- The number of entries of the root node. -/
def size : {h : ℕ} → Tree I K V h → ℕ
  | 0, t => t.toLeaf.entries.length
  | _ + 1, t => t.children.length

def leastKey {h : ℕ} (t : Tree I K V h) : Option K := t.entries.head?.map Prod.fst

end Tree

/-- What a list of children has below it. -/
def entriesOf {h : ℕ} (cs : List (K × Tree I K V h)) : List (K × V) :=
  cs.flatMap fun e => e.2.entries

/-- The leaves are linked through their `next` fields, from the identifier
`start` to the identifier `stop`. -/
def Linked (start : I) : List (Leaf I K V) → I → Prop
  | [], stop => start = stop
  | l :: ls, stop => start = l.id ∧ Linked l.next ls stop

/-- The entries are in the order of their keys. -/
def SortedKeys [LE K] (es : List (K × V)) : Prop := es.Pairwise fun a b => a.1 ≤ b.1

/-! ### Well-formed trees -/

section WellFormed

/-- Each child is listed under the least key below it. -/
def Keyed {h : ℕ} (cs : List (K × Tree I K V h)) : Prop := ∀ e ∈ cs, e.2.leastKey = some e.1

/-- Every branch lists its leftmost child under `⊥` and the others under the
least key below them, and no leaf is empty. -/
def Tree.Separated [LE K] [OrderBot K] : {h : ℕ} → Tree I K V h → Prop
  | 0, t => t.toLeaf.entries ≠ []
  | _ + 1, t => (∃ c rest, t.children = (⊥, c) :: rest ∧ Keyed rest) ∧
      ∀ e ∈ t.children, e.2.Separated

/-- The order in which searches rely on the tree. -/
structure Tree.Searchable [LE K] [OrderBot K] {h : ℕ} (t : Tree I K V h) : Prop where
  sorted : SortedKeys t.entries
  separated : t.Separated

variable (maxLeaf maxBranch : ℕ)

/-- No node has more entries than it may. -/
def Tree.Fits : {h : ℕ} → Tree I K V h → Prop
  | 0, t => t.toLeaf.entries.length ≤ maxLeaf
  | _ + 1, t => t.children.length ≤ maxBranch ∧
      ∀ e ∈ t.children, e.2.Fits

/-- The root node is at least half full. -/
def Tree.HalfFull : {h : ℕ} → Tree I K V h → Prop
  | 0, t => (maxLeaf + 1) / 2 ≤ t.toLeaf.entries.length
  | _ + 1, t => (maxBranch + 1) / 2 ≤ t.children.length

/-- All nodes but the root are at least half full. -/
def Tree.Filled : {h : ℕ} → Tree I K V h → Prop
  | 0, _ => True
  | _ + 1, t => ∀ e ∈ t.children, e.2.HalfFull maxLeaf maxBranch ∧ e.2.Filled

end WellFormed

/-! ### Lists of children -/

section Lists

variable {h : ℕ}

@[simp] theorem entriesOf_nil : entriesOf ([] : List (K × Tree I K V h)) = [] := rfl

@[simp] theorem entriesOf_cons (e : K × Tree I K V h) (cs : List (K × Tree I K V h)) :
    entriesOf (e :: cs) = e.2.entries ++ entriesOf cs := rfl

@[simp] theorem entriesOf_append (cs ds : List (K × Tree I K V h)) :
    entriesOf (cs ++ ds) = entriesOf cs ++ entriesOf ds := List.flatMap_append

theorem Tree.leaves_of_branch (t : Tree I K V (h + 1)) :
    t.leaves = t.children.flatMap fun e => e.2.leaves := rfl

theorem Tree.entries_of_branch (t : Tree I K V (h + 1)) :
    t.entries = entriesOf t.children := by
  show (t.children.flatMap fun e => e.2.leaves).flatMap Leaf.entries = _
  rw [List.flatMap_assoc]
  rfl

theorem Tree.ids_of_branch (t : Tree I K V (h + 1)) :
    t.ids = t.id :: t.children.flatMap fun e => e.2.ids := by
  show t.id :: List.map Prod.fst (t.children.flatMap fun e => e.2.nodes) = _
  rw [List.map_flatMap]
  rfl

section Child

variable {t : Tree I K V (h + 1)} {pre post : List (K × Tree I K V h)} {e : K × Tree I K V h}

theorem ids_subset_of_child (he : e ∈ t.children) : e.2.ids ⊆ t.ids := by
  intro p hp
  rw [Tree.ids_of_branch]
  exact List.mem_cons_of_mem _ (List.mem_flatMap.mpr ⟨e, he, hp⟩)

/-- The nodes of one child, apart from the branch and from its other children. -/
theorem ids_of_cut (hnodup : t.ids.Nodup) (hc : t.children = pre ++ e :: post) :
    e.2.ids.Nodup ∧ t.id ∉ e.2.ids ∧
      ∀ x, x ∈ pre ∨ x ∈ post → t.id ∉ x.2.ids ∧ ∀ p ∈ x.2.ids, p ∉ e.2.ids := by
  rw [Tree.ids_of_branch, hc, List.flatMap_append, List.flatMap_cons] at hnodup
  obtain ⟨hid, hnodup⟩ := List.nodup_cons.mp hnodup
  obtain ⟨-, hnodup, hpre⟩ := List.nodup_append'.mp hnodup
  obtain ⟨he, -, hpost⟩ := List.nodup_append'.mp hnodup
  simp only [List.mem_append, not_or] at hid
  refine ⟨he, hid.2.1, fun x hx => ?_⟩
  rcases hx with hx | hx
  · refine ⟨fun hmem => hid.1 (List.mem_flatMap.mpr ⟨x, hx, hmem⟩), fun p hp hpe => ?_⟩
    exact hpre (List.mem_flatMap.mpr ⟨x, hx, hp⟩) (List.mem_append_left _ hpe)
  · refine ⟨fun hmem => hid.2.2 (List.mem_flatMap.mpr ⟨x, hx, hmem⟩), fun p hp hpe => ?_⟩
    exact hpost hpe (List.mem_flatMap.mpr ⟨x, hx, hp⟩)

end Child

theorem Tree.entries_of_leaf (t : Tree I K V 0) : t.entries = t.toLeaf.entries :=
  List.append_nil _

theorem Tree.id_mem_ids : ∀ {h : ℕ} (t : Tree I K V h), t.id ∈ t.ids
  | 0, _ => List.mem_singleton.mpr rfl
  | _ + 1, t => by
      rw [Tree.ids_of_branch]
      exact List.mem_cons_self

theorem linked_append {start stop : I} {ls ls' : List (Leaf I K V)} :
    Linked start (ls ++ ls') stop ↔ ∃ mid, Linked start ls mid ∧ Linked mid ls' stop := by
  induction ls generalizing start with
  | nil => simp [Linked]
  | cons l ls ih =>
      simp only [List.cons_append, Linked, ih]
      constructor
      · rintro ⟨hstart, mid, hls, hls'⟩
        exact ⟨mid, ⟨hstart, hls⟩, hls'⟩
      · rintro ⟨mid, ⟨hstart, hls⟩, hls'⟩
        exact ⟨hstart, mid, hls, hls'⟩

theorem Tree.leaf_ids_sublist : ∀ {h : ℕ} (t : Tree I K V h),
    (t.leaves.map Leaf.id).Sublist t.ids
  | 0, _ => List.Sublist.refl _
  | h + 1, t => by
      rw [Tree.ids_of_branch, Tree.leaves_of_branch, List.map_flatMap]
      apply List.Sublist.cons _
      induction t.children with
      | nil => exact List.Sublist.refl _
      | cons e cs ih =>
          rw [List.flatMap_cons, List.flatMap_cons]
          exact (Tree.leaf_ids_sublist e.2).append ih

theorem Linked.next_mem {start stop : I} {ls : List (Leaf I K V)} (hlinked : Linked start ls stop)
    {l : Leaf I K V} (hl : l ∈ ls) : l.next = stop ∨ ∃ l' ∈ ls, l'.id = l.next := by
  induction ls generalizing start with
  | nil => simp at hl
  | cons x ls ih =>
      obtain ⟨-, hrest⟩ := hlinked
      rcases List.mem_cons.mp hl with rfl | hl
      · cases ls with
        | nil => exact Or.inl hrest
        | cons y ls => exact Or.inr ⟨y, by simp, hrest.1.symm⟩
      · rcases ih hrest hl with hstop | ⟨l', hl', hid⟩
        · exact Or.inl hstop
        · exact Or.inr ⟨l', List.mem_cons_of_mem x hl', hid⟩

end Lists

section Sorted

variable [LinearOrder K]

theorem sortedKeys_append {as bs : List (K × V)} :
    SortedKeys (as ++ bs) ↔ SortedKeys as ∧ SortedKeys bs ∧
      ∀ a ∈ as, ∀ b ∈ bs, a.1 ≤ b.1 := List.pairwise_append

/-- In sorted entries the first has the least key. -/
theorem SortedKeys.head_le {es : List (K × V)} (hs : SortedKeys es) {a : K}
    (ha : es.head?.map Prod.fst = some a) {e : K × V} (he : e ∈ es) : a ≤ e.1 := by
  obtain ⟨x, hx, rfl⟩ := Option.map_eq_some_iff.mp ha
  obtain ⟨xs, rfl⟩ := List.head?_eq_some_iff.mp hx
  rcases List.mem_cons.mp he with rfl | he
  · exact le_rfl
  · exact (List.pairwise_cons.mp hs).1 e he

end Sorted

/-! ### Search -/

section Search

variable [LinearOrder K] {h : ℕ} {k : K}

/-- The children of a branch, cut at the last one listed under a key that is
at most `k`. -/
def cut {T : Type u} (k : K) (cs : List (K × T)) :
    Option (List (K × T) × (K × T) × List (K × T)) :=
  match (cs.takeWhile (·.1 ≤ k)).reverse with
  | [] => none
  | e :: pre => some (pre.reverse, e, cs.dropWhile (·.1 ≤ k))

theorem takeWhile_of_cut {T : Type u} {cs pre post : List (K × T)} {e : K × T}
    (hcut : cut k cs = some (pre, e, post)) : cs.takeWhile (·.1 ≤ k) = pre ++ [e] := by
  rw [cut] at hcut
  split at hcut
  · simp at hcut
  next e' preRev hrev =>
  obtain ⟨rfl, rfl, rfl⟩ : preRev.reverse = pre ∧ e' = e ∧
      cs.dropWhile (·.1 ≤ k) = post := by simpa using hcut
  rw [← List.reverse_reverse (cs.takeWhile (·.1 ≤ k)), hrev, List.reverse_cons]

/-- What a cut says; `post` starts with a greater key. -/
theorem cut_eq_some {T : Type u} {cs pre post : List (K × T)} {e : K × T}
    (hcut : cut k cs = some (pre, e, post)) :
    cs = pre ++ e :: post ∧ e.1 ≤ k ∧ (∀ x ∈ pre, x.1 ≤ k) ∧ ∀ x ∈ post.head?, k < x.1 := by
  have htake := takeWhile_of_cut hcut
  rw [cut] at hcut
  split at hcut
  · simp at hcut
  next e' preRev hrev =>
  obtain ⟨rfl, rfl, rfl⟩ : preRev.reverse = pre ∧ e' = e ∧
      cs.dropWhile (·.1 ≤ k) = post := by simpa using hcut
  have hall : ∀ x ∈ preRev.reverse ++ [e'], x.1 ≤ k := by
    intro x hx
    rw [← htake] at hx
    simpa using List.mem_takeWhile_imp hx
  refine ⟨?_, hall e' (by simp), fun x hx => hall x (List.mem_append_left _ hx), ?_⟩
  · rw [← List.singleton_append, ← List.append_assoc, ← htake]
    exact (List.takeWhile_append_dropWhile).symm
  · intro x hx
    have hnot := List.head?_dropWhile_not (fun e : K × T => decide (e.1 ≤ k)) cs
    rw [Option.mem_def.mp hx] at hnot
    simpa using hnot

variable [OrderBot K]

theorem cut_isSome {T : Type u} {c : T} {rest : List (K × T)} :
    (cut k ((⊥, c) :: rest)).isSome := by
  rw [cut, List.takeWhile_cons_of_pos (by simp), List.reverse_cons]
  split
  · next hnil => simp at hnil
  · rfl

/-- The leaf a search for `k` ends in. -/
def Tree.locate (k : K) : {h : ℕ} → Tree I K V h → Option (Leaf I K V)
  | 0, t => some t.toLeaf
  | _ + 1, t =>
      match cut k t.children with
      | none => none
      | some (_, e, _) => e.2.locate k

theorem Tree.Separated.branch {t : Tree I K V (h + 1)} (hs : t.Separated) :
    (∃ c rest, t.children = (⊥, c) :: rest ∧ Keyed rest) ∧
      ∀ e ∈ t.children, e.2.Separated := hs

/-- A search finds its child in every branch. -/
theorem Tree.Separated.exists_cut {t : Tree I K V (h + 1)} (hs : t.Separated) (k : K) :
    ∃ pre e post, cut k t.children = some (pre, e, post) := by
  obtain ⟨⟨c, rest, hc, -⟩, -⟩ := hs.branch
  have hsome : (cut k t.children).isSome := by
    rw [hc]
    exact cut_isSome
  obtain ⟨⟨pre, e, post⟩, hcut⟩ := Option.isSome_iff_exists.mp hsome
  exact ⟨pre, e, post, hcut⟩

theorem Tree.Separated.entries_ne_nil : ∀ {h : ℕ} {t : Tree I K V h}, t.Separated →
    t.entries ≠ []
  | 0, t, hs => by
      show t.toLeaf.entries ++ [] ≠ []
      rw [List.append_nil]
      exact hs
  | _ + 1, t, hs => by
      obtain ⟨⟨c, rest, hc, -⟩, hall⟩ := hs.branch
      rw [Tree.entries_of_branch, hc, entriesOf_cons]
      have := (hall (⊥, c) (by simp [hc])).entries_ne_nil
      simp [this]

theorem Tree.Separated.leaf_ne_nil : ∀ {h : ℕ} {t : Tree I K V h}, t.Separated →
    ∀ l ∈ t.leaves, l.entries ≠ []
  | 0, t, hs, l, hl => by
      obtain rfl := List.mem_singleton.mp hl
      exact hs
  | _ + 1, t, hs, l, hl => by
      obtain ⟨e, he, hle⟩ := List.mem_flatMap.mp hl
      exact (hs.branch.2 e he).leaf_ne_nil l hle

/-- The entries of one child, among those of all. -/
theorem Tree.Searchable.child {t : Tree I K V (h + 1)} (hs : t.Searchable)
    {pre post : List (K × Tree I K V h)} {e : K × Tree I K V h}
    (hc : t.children = pre ++ e :: post) : e.2.Searchable where
  sorted := by
    have hsorted := hs.sorted
    rw [Tree.entries_of_branch, hc, entriesOf_append, entriesOf_cons] at hsorted
    exact (sortedKeys_append.mp (sortedKeys_append.mp hsorted).2.1).1
  separated := hs.separated.branch.2 e (by simp [hc])

/-- The children are listed in the order of their keys. -/
theorem Tree.Searchable.children_sorted {t : Tree I K V (h + 1)} (hs : t.Searchable) :
    t.children.Pairwise fun a b => a.1 ≤ b.1 := by
  obtain ⟨⟨c, rest, hrest, hkeyed⟩, hall⟩ := hs.separated.branch
  have hsorted := hs.sorted
  rw [Tree.entries_of_branch, hrest, entriesOf_cons] at hsorted
  have hsortedRest := (sortedKeys_append.mp hsorted).2.1
  rw [hrest]
  refine List.pairwise_cons.mpr ⟨fun _ _ => bot_le, ?_⟩
  clear hrest hall hsorted
  induction rest with
  | nil => exact List.Pairwise.nil
  | cons e rest ih =>
      rw [entriesOf_cons] at hsortedRest
      obtain ⟨-, hs₂, hcross⟩ := sortedKeys_append.mp hsortedRest
      refine List.pairwise_cons.mpr ⟨fun b hb => ?_, ih (fun x hx => hkeyed x (by simp [hx])) hs₂⟩
      obtain ⟨x, hx, hx1⟩ := Option.map_eq_some_iff.mp (hkeyed e (by simp))
      obtain ⟨y, hy, hy1⟩ := Option.map_eq_some_iff.mp (hkeyed b (by simp [hb]))
      rw [← hx1, ← hy1]
      exact hcross x (List.mem_of_mem_head? hx) y
        (List.mem_flatMap.mpr ⟨b, hb, List.mem_of_mem_head? hy⟩)

/-- The keys of the children of a branch, around one of them. -/
theorem keyed_split {c : Tree I K V h} {rest pre post : List (K × Tree I K V h)}
    {e : K × Tree I K V h} (hc : pre ++ e :: post = (⊥, c) :: rest) (hkeyed : Keyed rest) :
    (pre = [] → e.1 = ⊥) ∧ (pre ≠ [] → e.2.leastKey = some e.1) ∧ Keyed post := by
  cases pre with
  | nil =>
      rw [List.nil_append, List.cons.injEq] at hc
      obtain ⟨rfl, rfl⟩ := hc
      exact ⟨fun _ => rfl, fun hne => absurd rfl hne, hkeyed⟩
  | cons p pre =>
      rw [List.cons_append, List.cons.injEq] at hc
      obtain ⟨-, rfl⟩ := hc
      refine ⟨fun hnil => absurd hnil (List.cons_ne_nil p pre), fun _ => ?_, fun x hx => ?_⟩
      · exact hkeyed e (List.mem_append_right _ List.mem_cons_self)
      · exact hkeyed x (List.mem_append_right _ (List.mem_cons_of_mem e hx))

/-- Where a key belongs among the children: what is left of the cut is not
above `k`, what is right of it is. A child that is not the first is listed
under its least key. -/
theorem Tree.Searchable.cut_spec {t : Tree I K V (h + 1)} (hs : t.Searchable)
    {pre post : List (K × Tree I K V h)} {e : K × Tree I K V h}
    (hcut : cut k t.children = some (pre, e, post)) :
    t.children = pre ++ e :: post ∧ e.1 ≤ k ∧ (∀ a ∈ entriesOf pre, a.1 ≤ k) ∧
      (∀ b ∈ entriesOf post, k < b.1) ∧ (pre = [] → e.1 = ⊥) ∧
      (pre ≠ [] → e.2.leastKey = some e.1) ∧ Keyed post := by
  obtain ⟨hc, hek, -, hpost⟩ := cut_eq_some hcut
  obtain ⟨⟨c, rest, hrest, hkeyed⟩, hall⟩ := hs.separated.branch
  have hsorted := hs.sorted
  rw [Tree.entries_of_branch, hc, entriesOf_append, entriesOf_cons] at hsorted
  obtain ⟨-, hright, hcross⟩ := sortedKeys_append.mp hsorted
  obtain ⟨-, hsortedPost, -⟩ := sortedKeys_append.mp hright
  obtain ⟨hfirst, hkey, hkeyedPost⟩ := keyed_split (hc.symm.trans hrest) hkeyed
  refine ⟨hc, hek, fun a ha => ?_, fun b hb => ?_, hfirst, hkey, hkeyedPost⟩
  · have hne : pre ≠ [] := by
      rintro rfl
      simp at ha
    have hleast := hkey hne
    obtain ⟨x, hx, hx1⟩ := Option.map_eq_some_iff.mp hleast
    have hmem : x ∈ e.2.entries := List.mem_of_mem_head? hx
    have hle : a.1 ≤ x.1 := hcross a ha x (List.mem_append_left _ hmem)
    rw [hx1] at hle
    exact hle.trans hek
  · cases post with
    | nil => simp at hb
    | cons y post =>
        have hky : k < y.1 := hpost y (by simp)
        have hne := (hall y (by simp [hc])).entries_ne_nil
        have hleast : (entriesOf (y :: post)).head?.map Prod.fst = some y.1 := by
          rw [entriesOf_cons, List.head?_append_of_ne_nil _ hne]
          exact hkeyedPost y List.mem_cons_self
        exact hky.trans_le (hsortedPost.head_le hleast hb)

/-- **The leaf a search ends in**: the leaves before it hold nothing above
its own least key, which is then at most `k`, and the leaves behind it
nothing that is not above `k`. -/
theorem Tree.Searchable.locate_spec : ∀ {h : ℕ} {t : Tree I K V h}, t.Searchable → ∀ k : K,
    ∃ before l after, t.locate k = some l ∧ t.leaves = before ++ l :: after ∧
      (before ≠ [] → ∃ a, l.entries.head?.map Prod.fst = some a ∧ a ≤ k) ∧
      ∀ l' ∈ after, ∀ x ∈ l'.entries, k < x.1
  | 0, t, hs, k =>
      ⟨[], t.toLeaf, [], rfl, rfl, fun hne => absurd rfl hne, fun _ hl => by simp at hl⟩
  | h + 1, t, hs, k => by
      obtain ⟨pre, e, post, hcut⟩ := hs.separated.exists_cut k
      obtain ⟨hc, hek, -, hpost, -, hkey, -⟩ := hs.cut_spec hcut
      have hchild := hs.child hc
      obtain ⟨before, l, after, hlocate, hleaves, hbefore, hafter⟩ := hchild.locate_spec k
      refine ⟨pre.flatMap (fun e => e.2.leaves) ++ before, l,
        after ++ post.flatMap (fun e => e.2.leaves), ?_, ?_, ?_, ?_⟩
      · rw [Tree.locate, hcut]
        exact hlocate
      · show t.children.flatMap (fun e => e.2.leaves) = _
        rw [hc, List.flatMap_append, List.flatMap_cons, hleaves]
        simp only [List.append_assoc, List.cons_append]
      · intro hne
        by_cases hnil : before = []
        · -- the leaf is the first one of its child, which is not the first
          have hpre : pre ≠ [] := by
            rintro rfl
            exact hne (by simp [hnil])
          refine ⟨e.1, ?_, hek⟩
          have hleast := hkey hpre
          have hlne : l.entries ≠ [] :=
            hchild.separated.leaf_ne_nil l (by simp [hleaves])
          rw [Tree.leastKey, Tree.entries, hleaves, hnil, List.nil_append, List.flatMap_cons,
            List.head?_append_of_ne_nil _ hlne] at hleast
          exact hleast
        · exact hbefore hnil
      · intro l' hl' x hx
        rcases List.mem_append.mp hl' with hl' | hl'
        · exact hafter l' hl' x hx
        · obtain ⟨y, hy, hly⟩ := List.mem_flatMap.mp hl'
          refine hpost x (List.mem_flatMap.mpr ⟨y, hy, ?_⟩)
          exact List.mem_flatMap.mpr ⟨l', hly, hx⟩

end Search

end StorageEngine.Lib.BPlus
