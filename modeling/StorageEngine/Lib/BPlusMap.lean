import StorageEngine.Lib.BPlusInsert

/-!
B+Trees with other values under the same keys.

An insertion looks at the keys of a tree only. Inserting and then putting other
values in is putting other values in and then inserting, as long as the sorting
functions agree. All that is left to a sorting function is the order of values
under one key, so that without its values, `Tree.skeleton`, a tree grows in the
same way under any of them.
-/

namespace StorageEngine.Lib.BPlus

universe u

variable {I K V W : Type u}

/-- The values under the keys replaced. -/
def mapSnd (f : V → W) (es : List (K × V)) : List (K × W) := es.map fun e => (e.1, f e.2)

@[simp] theorem mapSnd_cons (f : V → W) (e : K × V) (es : List (K × V)) :
    mapSnd f (e :: es) = (e.1, f e.2) :: mapSnd f es := rfl

@[simp] theorem mapSnd_append (f : V → W) (es es' : List (K × V)) :
    mapSnd f (es ++ es') = mapSnd f es ++ mapSnd f es' := List.map_append

@[simp] theorem length_mapSnd (f : V → W) (es : List (K × V)) :
    (mapSnd f es).length = es.length := List.length_map _

@[simp] theorem take_mapSnd (f : V → W) (n : ℕ) (es : List (K × V)) :
    (mapSnd f es).take n = mapSnd f (es.take n) := List.map_take.symm

@[simp] theorem drop_mapSnd (f : V → W) (n : ℕ) (es : List (K × V)) :
    (mapSnd f es).drop n = mapSnd f (es.drop n) := List.map_drop.symm

/-- The tree with other values. -/
def Tree.mapValues (f : V → W) : {h : ℕ} → Tree I K V h → Tree I K W h
  | 0, t => .leaf t.id t.toLeaf.next (mapSnd f t.toLeaf.entries)
  | _ + 1, t => .branch t.id (t.children.map fun e => (e.1, e.2.mapValues f))

section Map

variable {f : V → W} {h : ℕ}

@[simp] theorem Tree.mapValues_leaf (id next : I) (entries : List (K × V)) :
    (leaf id next entries).mapValues f = leaf id next (mapSnd f entries) := rfl

@[simp] theorem Tree.mapValues_branch (id : I) (cs : List (K × Tree I K V h)) :
    (branch id cs).mapValues f = branch id (mapSnd (mapValues f) cs) := rfl

@[simp] theorem Tree.id_mapValues : ∀ {h : ℕ} (t : Tree I K V h), (t.mapValues f).id = t.id
  | 0, _ => rfl
  | _ + 1, _ => rfl

/-- What became of the node with other values. -/
def Grown.map {T T' : Type u} (g : T → T') : Grown T K → Grown T' K
  | .fit t => .fit (g t)
  | .split l sep r => .split (g l) sep (g r)

@[simp] theorem Grown.children_map {T T' : Type u} (g : T → T') (key : K) (grown : Grown T K) :
    (grown.map g).children key = mapSnd g (grown.children key) := by
  cases grown with
  | fit t => rfl
  | split l sep r => rfl

/-- The outcome of an insertion with other values. -/
def mapOutcome {T T' : Type u} (g : T → T') :
    Option (Grown T K × List I) → Option (Grown T' K × List I) :=
  Option.map fun out => (out.1.map g, out.2)

/-- Outcomes that are the same with other values. -/
theorem mapOutcome_cases {T T' U : Type u} {g : T → U} {g' : T' → U}
    {o : Option (Grown T K × List I)} {o' : Option (Grown T' K × List I)}
    (h : mapOutcome g o = mapOutcome g' o') :
    (o = none ∧ o' = none) ∨
      (∃ t t' fresh, o = some (.fit t, fresh) ∧ o' = some (.fit t', fresh) ∧ g t = g' t') ∨
      ∃ l l' s r r' fresh, o = some (.split l s r, fresh) ∧ o' = some (.split l' s r', fresh) ∧
        g l = g' l' ∧ g r = g' r' := by
  match o, o' with
  | none, none => exact Or.inl ⟨rfl, rfl⟩
  | some (.fit t, fresh), some (.fit t', fresh') =>
      obtain ⟨ht, rfl⟩ : g t = g' t' ∧ fresh = fresh' := by
        simpa [mapOutcome, Grown.map] using h
      exact Or.inr (Or.inl ⟨t, t', fresh, rfl, rfl, ht⟩)
  | some (.split l s r, fresh), some (.split l' s' r', fresh') =>
      obtain ⟨⟨hl, rfl, hr⟩, rfl⟩ : (g l = g' l' ∧ s = s' ∧ g r = g' r') ∧ fresh = fresh' := by
        simpa [mapOutcome, Grown.map] using h
      exact Or.inr (Or.inr ⟨l, l', s, r, r', fresh, rfl, rfl, hl, hr⟩)
  | none, some out => simp [mapOutcome] at h
  | some out, none => simp [mapOutcome] at h
  | some (.fit t, fresh), some (.split l s r, fresh') => simp [mapOutcome, Grown.map] at h
  | some (.split l s r, fresh), some (.fit t, fresh') => simp [mapOutcome, Grown.map] at h

end Map

/-! ### Insertion -/

section Insert

variable {f : V → W} {sort : List (K × V) → List (K × V)} {sort' : List (K × W) → List (K × W)}
  {maxLeaf maxBranch : ℕ} {h : ℕ}

theorem insertLeaf_map (hsort : ∀ es, mapSnd f (sort es) = sort' (mapSnd f es))
    (t : Tree I K V 0) (k : K) (v : V) (fresh : List I) :
    insertLeaf sort' maxLeaf (t.mapValues f) k (f v) fresh =
      mapOutcome (Tree.mapValues f) (insertLeaf sort maxLeaf t k v fresh) := by
  have hentries : sort' ((t.mapValues f).toLeaf.entries ++ [(k, f v)]) =
      mapSnd f (sort (t.toLeaf.entries ++ [(k, v)])) := by
    rw [hsort, mapSnd_append]
    rfl
  simp only [insertLeaf, hentries, length_mapSnd, take_mapSnd, drop_mapSnd]
  split
  · rfl
  · cases fresh with
    | nil => rfl
    | cons new fresh =>
        cases (sort (t.toLeaf.entries ++ [(k, v)])).drop
            ((sort (t.toLeaf.entries ++ [(k, v)])).length / 2) with
        | nil => rfl
        | cons e right => rfl

theorem graft_map [Bot K] (id : I) (cs : List (K × Tree I K V h)) (fresh : List I) :
    graft maxBranch id (mapSnd (Tree.mapValues f) cs) fresh =
      mapOutcome (Tree.mapValues f) (graft maxBranch id cs fresh) := by
  simp only [graft, length_mapSnd, take_mapSnd, drop_mapSnd]
  split
  · rfl
  · cases fresh with
    | nil => rfl
    | cons new fresh =>
        cases cs.drop (cs.length / 2) with
        | nil => rfl
        | cons e right => rfl

theorem cut_map [LinearOrder K] {T T' : Type u} (g : T → T') (k : K) (cs : List (K × T)) :
    cut k (mapSnd g cs) = (cut k cs).map fun x =>
      (mapSnd g x.1, (x.2.1.1, g x.2.1.2), mapSnd g x.2.2) := by
  have htake : (mapSnd g cs).takeWhile (·.1 ≤ k) = mapSnd g (cs.takeWhile (·.1 ≤ k)) :=
    List.takeWhile_map ..
  have hdrop : (mapSnd g cs).dropWhile (·.1 ≤ k) = mapSnd g (cs.dropWhile (·.1 ≤ k)) :=
    List.dropWhile_map ..
  rw [cut, cut, htake, hdrop, mapSnd, ← List.map_reverse]
  cases (cs.takeWhile (·.1 ≤ k)).reverse with
  | nil => rfl
  | cons e pre =>
      simp [mapSnd]

/-- **An insertion does not look at values.** -/
theorem Tree.insert_map [LinearOrder K] [OrderBot K]
    (hsort : ∀ es, mapSnd f (sort es) = sort' (mapSnd f es)) (k : K) (v : V) :
    ∀ {h : ℕ} (t : Tree I K V h) (fresh : List I),
      (t.mapValues f).insert sort' maxLeaf maxBranch k (f v) fresh =
        mapOutcome (mapValues f) (t.insert sort maxLeaf maxBranch k v fresh)
  | 0, t, fresh => insertLeaf_map hsort t k v fresh
  | h + 1, t, fresh => by
      have hchildren : (t.mapValues f).children = mapSnd (mapValues f) t.children := rfl
      rw [Tree.insert, Tree.insert, hchildren, cut_map]
      cases cut k t.children with
      | none => rfl
      | some x =>
          obtain ⟨pre, e, post⟩ := x
          simp only [Option.map_some]
          rw [insert_map hsort k v e.2 fresh]
          cases e.2.insert sort maxLeaf maxBranch k v fresh with
          | none => rfl
          | some out =>
              simp only [mapOutcome, Option.map_some, Grown.children_map, ← mapSnd_append,
                id_mapValues]
              exact graft_map t.id _ out.2

end Insert

/-! ### Trees without values -/

/-- The tree without its values. -/
def Tree.skeleton {h : ℕ} (t : Tree I K V h) : Tree I K PUnit h := t.mapValues fun _ => .unit

section Skeleton

variable [LinearOrder K]

/-- The one way to sort keys. -/
def keySort (es : List (K × PUnit.{u + 1})) : List (K × PUnit.{u + 1}) :=
  es.insertionSort fun a b => a.1 ≤ b.1

/-- Without the values, all sorting functions are one. -/
theorem Sorts.mapSnd_eq {sort : List (K × V) → List (K × V)} (hs : Sorts sort)
    (es : List (K × V)) :
    mapSnd (fun _ => PUnit.unit) (sort es) = keySort (mapSnd (fun _ => PUnit.unit) es) := by
  have htotal : Std.Total fun a b : K × PUnit.{u + 1} => a.1 ≤ b.1 :=
    ⟨fun a b => le_total a.1 b.1⟩
  have htrans : IsTrans (K × PUnit.{u + 1}) fun a b => a.1 ≤ b.1 := ⟨fun _ _ _ => le_trans⟩
  have hleft : (mapSnd (fun _ => PUnit.unit) (sort es)).Pairwise fun a b => a.1 ≤ b.1 :=
    List.pairwise_map.mpr (hs.sorted es)
  refine List.Perm.eq_of_pairwise ?_ hleft (List.pairwise_insertionSort _ _) ?_
  · rintro ⟨a, ⟨⟩⟩ ⟨b, ⟨⟩⟩ - - hab hba
    obtain rfl : a = b := le_antisymm hab hba
    rfl
  · exact ((hs.perm es).map _).trans (List.perm_insertionSort _ _).symm

variable [OrderBot K] {sort : List (K × V) → List (K × V)} {sort' : List (K × W) → List (K × W)}
  {h : ℕ}

/-- **The shape of a tree** is up to the shape before and to the key inserted. -/
theorem Tree.insert_skeleton (maxLeaf maxBranch : ℕ) (hs : Sorts sort) (hs' : Sorts sort')
    {t : Tree I K V h} {t' : Tree I K W h} (ht : t.skeleton = t'.skeleton) (k : K) (v : V) (v' : W)
    (fresh : List I) :
    mapOutcome skeleton (t.insert sort maxLeaf maxBranch k v fresh) =
      mapOutcome skeleton (t'.insert sort' maxLeaf maxBranch k v' fresh) := by
  calc mapOutcome skeleton (t.insert sort maxLeaf maxBranch k v fresh)
      = t.skeleton.insert keySort maxLeaf maxBranch k .unit fresh :=
        (Tree.insert_map hs.mapSnd_eq k v t fresh).symm
    _ = t'.skeleton.insert keySort maxLeaf maxBranch k .unit fresh := by rw [ht]
    _ = mapOutcome skeleton (t'.insert sort' maxLeaf maxBranch k v' fresh) :=
        Tree.insert_map hs'.mapSnd_eq k v' t' fresh

end Skeleton

end StorageEngine.Lib.BPlus
