import StorageEngine.Lib.Loop
import StorageEngine.Tree.Node

/-!
The two binary searches within one node.

Each is a loop over a pair `(low, high)`. Its turn is taken from the source as
it stands there; that `find_child_index` and `find_kv` return what the loop
ends with, however many turns they are allowed, comes from the variant
`high - low`. The invariants say what is known of the entries below `low` and
of those from `high` on, which is where the order of the entries comes in.
-/

namespace StorageEngine

open Lib

/-- Entries further up have no smaller keys. -/
theorem key_le_of_le {α : Type} {entries : List (Key × α)}
    (hs : entries.Pairwise fun a b => a.1 ≤ b.1) {i j : ℕ} {a b : Key × α}
    (hi : entries[i]? = some a) (hj : entries[j]? = some b) (hij : i ≤ j) : a.1 ≤ b.1 := by
  rcases hij.eq_or_lt with rfl | hlt
  · obtain rfl := Option.some.inj (hi.symm.trans hj)
    exact le_rfl
  · obtain ⟨hilen, rfl⟩ := List.getElem?_eq_some_iff.mp hi
    obtain ⟨hjlen, rfl⟩ := List.getElem?_eq_some_iff.mp hj
    exact List.pairwise_iff_getElem.mp hs i j hilen hjlen hlt

/-- There is an entry in the middle of a window. -/
theorem exists_middle {α : Type} {entries : List α} {low high : ℕ} (hlt : low < high)
    (hhigh : high ≤ entries.length) : ∃ e, entries[low + (high - low) / 2]? = some e :=
  ⟨_, List.getElem?_eq_getElem (by omega)⟩

namespace InternalNode

/-- A turn of the loop of `find_child_index`. -/
def childIndexTurn (entries : List InternalKv) (key : Key) :
    ℕ × ℕ → Except Panic ((ℕ × ℕ) ⊕ ℕ)
  | (low, high) =>
      if low < high then do
        let mid := low + (high - low) / 2
        let entry ← orPanic .index entries[mid]?
        if entry.1 ≤ key then return .inl (mid + 1, high)
        else return .inl (low, mid)
      else return .inr low

variable {entries : List InternalKv} {key : Key} {low high fuel r : ℕ} {e : InternalKv}

theorem childIndexTurn_exit (hge : ¬low < high) :
    childIndexTurn entries key (low, high) = .ok (.inr low) := if_neg hge

theorem childIndexTurn_next (hlt : low < high)
    (he : entries[low + (high - low) / 2]? = some e) :
    childIndexTurn entries key (low, high) = .ok (.inl
      (if e.1 ≤ key then (low + (high - low) / 2 + 1, high)
        else (low, low + (high - low) / 2))) := by
  rw [childIndexTurn, if_pos hlt]
  simp only [he, orPanic_some, ok_bind]
  split
  · rfl
  · rfl

/-- What is below `low` is at most `key`, what is from `high` on is above it. -/
structure Narrowed (entries : List InternalKv) (key : Key) (s : ℕ × ℕ) : Prop where
  low_le : s.1 ≤ s.2
  high_le : s.2 ≤ entries.length
  below : ∀ i e, i < s.1 → entries[i]? = some e → e.1 ≤ key
  above : ∀ i e, s.2 ≤ i → entries[i]? = some e → key < e.1

theorem Narrowed.next (hs : entries.Pairwise fun a b => a.1 ≤ b.1)
    (h : Narrowed entries key (low, high)) (hlt : low < high)
    (he : entries[low + (high - low) / 2]? = some e) :
    Narrowed entries key (if e.1 ≤ key then (low + (high - low) / 2 + 1, high)
      else (low, low + (high - low) / 2)) := by
  have hhigh : high ≤ entries.length := h.high_le
  split
  · next hek =>
      refine ⟨by simp only; omega, hhigh, fun i x hi hx => ?_, h.above⟩
      exact (key_le_of_le hs hx he (Nat.lt_succ_iff.mp hi)).trans hek
  · next hek =>
      refine ⟨by simp only; omega, by simp only; omega, h.below, fun i x hi hx => ?_⟩
      exact (not_le.mp hek).trans_le (key_le_of_le hs he hx hi)

/-- The loop ends at the number of entries up to `key`. -/
theorem childIndex_ends (hs : entries.Pairwise fun a b => a.1 ≤ b.1) (key : Key) :
    ∃ low, Ends (childIndexTurn entries key) (0, entries.length) low ∧
      Narrowed entries key (low, low) := by
  refine exists_ends (Narrowed entries key) (fun s => s.2 - s.1) ?_
    ⟨Nat.zero_le _, le_rfl, fun i e hi => absurd hi (Nat.not_lt_zero i), fun i e hi he => ?_⟩
  · rintro ⟨low, high⟩ h
    by_cases hlt : low < high
    · obtain ⟨e, he⟩ := exists_middle hlt h.high_le
      refine Or.inr ⟨_, childIndexTurn_next hlt he, h.next hs hlt he, ?_⟩
      split
      · simp only
        omega
      · simp only
        omega
    · have heq : low = high := le_antisymm h.low_le (not_lt.mp hlt)
      exact Or.inl ⟨low, childIndexTurn_exit hlt, heq ▸ h⟩
  · rw [List.getElem?_eq_none hi] at he
    simp at he

theorem childIndexTurn_cases {o : (ℕ × ℕ) ⊕ ℕ}
    (h : childIndexTurn entries key (low, high) = .ok o) :
    ¬low < high ∧ o = .inr low ∨
    low < high ∧ ∃ e, entries[low + (high - low) / 2]? = some e ∧
      o = .inl (if e.1 ≤ key then (low + (high - low) / 2 + 1, high)
        else (low, low + (high - low) / 2)) := by
  by_cases hlt : low < high
  · refine Or.inr ⟨hlt, ?_⟩
    cases he : entries[low + (high - low) / 2]? with
    | none =>
        rw [childIndexTurn, if_pos hlt] at h
        simp only [he, orPanic_none] at h
        exact absurd h (by rintro ⟨⟩)
    | some e =>
        rw [childIndexTurn_next hlt he] at h
        exact ⟨e, rfl, (Except.ok.inj h).symm⟩
  · rw [childIndexTurn_exit hlt] at h
    exact Or.inl ⟨hlt, (Except.ok.inj h).symm⟩

/-- Where the loop ends is where `find_child_index` finds it ending. -/
theorem findChildIndexLoop_of_ends {s : ℕ × ℕ} (h : Ends (childIndexTurn entries key) s r) :
    ∀ {fuel : ℕ}, s.2 - s.1 ≤ fuel → findChildIndexLoop entries key fuel s.1 s.2 = .ok r := by
  induction h with
  | @exit s b hexit =>
      intro fuel _
      rcases childIndexTurn_cases hexit with ⟨hge, heq⟩ | ⟨-, e, -, heq⟩
      · obtain rfl := Sum.inr.inj heq
        cases fuel with
        | zero => rfl
        | succ fuel => exact if_neg hge
      · simp at heq
  | @next s s' b hnext hends ih =>
      intro fuel hfuel
      rcases childIndexTurn_cases hnext with ⟨-, heq⟩ | ⟨hlt, e, he, heq⟩
      · simp at heq
      obtain rfl := Sum.inl.inj heq
      cases fuel with
      | zero => omega
      | succ fuel =>
          rw [findChildIndexLoop, if_pos hlt]
          simp only [he, orPanic_some, ok_bind]
          split at ih
          · next hek =>
              rw [if_pos hek]
              exact ih (by simp only; omega)
          · next hek =>
              rw [if_neg hek]
              exact ih (by simp only; omega)

/-- `find_child_index`, where the first entry is not above the key. -/
theorem findChildIndex_spec (B : Build) (node : InternalNode)
    (hs : node.entries.Pairwise fun a b => a.1 ≤ b.1) (hfirst : node.entries[0]? = some e)
    (hkey : e.1 ≤ key) :
    ∃ i, Ends (childIndexTurn node.entries key) (0, node.entries.length) (i + 1) ∧
      node.findChildIndex B key = .ok i ∧ Narrowed node.entries key (i + 1, i + 1) := by
  obtain ⟨low, hends, hnarrowed⟩ := childIndex_ends hs key
  obtain ⟨i, rfl⟩ : ∃ i, low = i + 1 := by
    refine Nat.exists_eq_succ_of_ne_zero ?_
    rintro rfl
    exact absurd hkey (not_le.mpr (hnarrowed.above 0 e le_rfl hfirst))
  refine ⟨i, hends, ?_, hnarrowed⟩
  rw [findChildIndex, findChildIndexLoop_of_ends hends (Nat.sub_le _ _), ok_bind, Build.subUsize,
    if_pos (Nat.le_add_left 1 i), Nat.add_sub_cancel]

end InternalNode

namespace LeafNode

/-- A turn of the loop of `find_kv`. The bounds move before the test for
equality, which leaves the loop. -/
def kvTurn (entries : List LeafKv) (key : Key) :
    ℕ × ℕ → Except Panic ((ℕ × ℕ) ⊕ Option LeafKv)
  | (low, high) =>
      if low < high then do
        let mid := low + (high - low) / 2
        let entry ← orPanic .index entries[mid]?
        let (low, high) := if entry.1 ≤ key then (mid + 1, high) else (low, mid)
        if entry.1 = key then return .inr (some entry)
        else return .inl (low, high)
      else return .inr none

variable {entries : List LeafKv} {key : Key} {low high fuel : ℕ} {e : LeafKv}
  {r : Option LeafKv}

theorem kvTurn_exit (hge : ¬low < high) : kvTurn entries key (low, high) = .ok (.inr none) :=
  if_neg hge

theorem kvTurn_found (hlt : low < high) (he : entries[low + (high - low) / 2]? = some e)
    (hkey : e.1 = key) : kvTurn entries key (low, high) = .ok (.inr (some e)) := by
  rw [kvTurn, if_pos hlt]
  simp only [he, orPanic_some, ok_bind, if_pos hkey]
  rfl

theorem kvTurn_next (hlt : low < high) (he : entries[low + (high - low) / 2]? = some e)
    (hkey : e.1 ≠ key) : kvTurn entries key (low, high) = .ok (.inl
      (if e.1 ≤ key then (low + (high - low) / 2 + 1, high)
        else (low, low + (high - low) / 2))) := by
  rw [kvTurn, if_pos hlt]
  simp only [he, orPanic_some, ok_bind, if_neg hkey]
  rfl

theorem kvTurn_cases {o : (ℕ × ℕ) ⊕ Option LeafKv}
    (h : kvTurn entries key (low, high) = .ok o) :
    ¬low < high ∧ o = .inr none ∨
    low < high ∧ ∃ e, entries[low + (high - low) / 2]? = some e ∧
      (e.1 = key ∧ o = .inr (some e) ∨ e.1 ≠ key ∧
        o = .inl (if e.1 ≤ key then (low + (high - low) / 2 + 1, high)
          else (low, low + (high - low) / 2))) := by
  by_cases hlt : low < high
  · refine Or.inr ⟨hlt, ?_⟩
    cases he : entries[low + (high - low) / 2]? with
    | none =>
        rw [kvTurn, if_pos hlt] at h
        simp only [he, orPanic_none] at h
        exact absurd h (by rintro ⟨⟩)
    | some e =>
        refine ⟨e, rfl, ?_⟩
        by_cases hkey : e.1 = key
        · rw [kvTurn_found hlt he hkey] at h
          exact Or.inl ⟨hkey, (Except.ok.inj h).symm⟩
        · rw [kvTurn_next hlt he hkey] at h
          exact Or.inr ⟨hkey, (Except.ok.inj h).symm⟩
  · rw [kvTurn_exit hlt] at h
    exact Or.inl ⟨hlt, (Except.ok.inj h).symm⟩

/-- What is below `low` is below `key`, what is from `high` on is above it. -/
structure Narrowed (entries : List LeafKv) (key : Key) (s : ℕ × ℕ) : Prop where
  high_le : s.2 ≤ entries.length
  below : ∀ i e, i < s.1 → entries[i]? = some e → e.1 < key
  above : ∀ i e, s.2 ≤ i → entries[i]? = some e → key < e.1

theorem Narrowed.next (hs : entries.Pairwise fun a b => a.1 ≤ b.1)
    (h : Narrowed entries key (low, high)) (hlt : low < high)
    (he : entries[low + (high - low) / 2]? = some e) (hkey : e.1 ≠ key) :
    Narrowed entries key (if e.1 ≤ key then (low + (high - low) / 2 + 1, high)
      else (low, low + (high - low) / 2)) := by
  have hhigh : high ≤ entries.length := h.high_le
  split
  · next hek =>
      refine ⟨hhigh, fun i x hi hx => ?_, h.above⟩
      exact (key_le_of_le hs hx he (Nat.lt_succ_iff.mp hi)).trans_lt (lt_of_le_of_ne hek hkey)
  · next hek =>
      refine ⟨by simp only; omega, h.below, fun i x hi hx => ?_⟩
      exact (not_le.mp hek).trans_le (key_le_of_le hs he hx hi)

/-- The loop ends with an entry that has the key, if there is one. -/
theorem kv_ends (hs : entries.Pairwise fun a b => a.1 ≤ b.1) (key : Key) :
    ∃ o, Ends (kvTurn entries key) (0, entries.length) o ∧
      (∀ e, o = some e → e ∈ entries ∧ e.1 = key) ∧
      (o = none → ∀ e ∈ entries, e.1 ≠ key) := by
  refine exists_ends (Narrowed entries key) (fun s => s.2 - s.1) ?_
    ⟨le_rfl, fun i e hi => absurd hi (Nat.not_lt_zero i), fun i e hi he => ?_⟩
  · rintro ⟨low, high⟩ h
    by_cases hlt : low < high
    · obtain ⟨e, he⟩ := exists_middle hlt h.high_le
      by_cases hkey : e.1 = key
      · refine Or.inl ⟨some e, kvTurn_found hlt he hkey, fun x hx => ?_, by simp⟩
        obtain rfl := Option.some.inj hx
        exact ⟨List.mem_of_getElem? he, hkey⟩
      · refine Or.inr ⟨_, kvTurn_next hlt he hkey, h.next hs hlt he hkey, ?_⟩
        split
        · simp only
          omega
        · simp only
          omega
    · refine Or.inl ⟨none, kvTurn_exit hlt, by simp, fun _ e he => ?_⟩
      obtain ⟨i, hi⟩ := List.mem_iff_getElem?.mp he
      -- the window is empty, so that the entry is on one side of it
      by_cases hlow : i < low
      · exact (h.below i e hlow hi).ne
      · exact (h.above i e (by simp only; omega) hi).ne'
  · rw [List.getElem?_eq_none hi] at he
    simp at he

/-- Where the loop ends is where `find_kv` finds it ending. -/
theorem findKvLoop_of_ends {s : ℕ × ℕ} (h : Ends (kvTurn entries key) s r) :
    ∀ {fuel : ℕ}, s.2 - s.1 ≤ fuel → findKvLoop entries key fuel s.1 s.2 = .ok r := by
  induction h with
  | @exit s b hexit =>
      intro fuel hfuel
      rcases kvTurn_cases hexit with ⟨hge, heq⟩ | ⟨hlt, e, he, ⟨hkey, heq⟩ | ⟨-, heq⟩⟩
      · obtain rfl := Sum.inr.inj heq
        cases fuel with
        | zero => rfl
        | succ fuel => exact if_neg hge
      · obtain rfl := Sum.inr.inj heq
        cases fuel with
        | zero => omega
        | succ fuel =>
            rw [findKvLoop, if_pos hlt]
            simp only [he, orPanic_some, ok_bind, if_pos hkey]
            rfl
      · simp at heq
  | @next s s' b hnext hends ih =>
      intro fuel hfuel
      rcases kvTurn_cases hnext with ⟨-, heq⟩ | ⟨hlt, e, he, ⟨-, heq⟩ | ⟨hkey, heq⟩⟩
      · simp at heq
      · simp at heq
      obtain rfl := Sum.inl.inj heq
      cases fuel with
      | zero => omega
      | succ fuel =>
          rw [findKvLoop, if_pos hlt]
          simp only [he, orPanic_some, ok_bind, if_neg hkey]
          split at ih
          · next hek =>
              rw [if_pos hek]
              exact ih (by simp only; omega)
          · next hek =>
              rw [if_neg hek]
              exact ih (by simp only; omega)

/-- `find_kv` finds an entry with the key in sorted entries that have one. -/
theorem findKv_spec {node : LeafNode} (key : Key)
    (hs : node.entries.Pairwise fun a b => a.1 ≤ b.1) :
    ∃ o, Ends (kvTurn node.entries key) (0, node.entries.length) o ∧
      node.findKv key = .ok o ∧ (∀ e, o = some e → e ∈ node.entries ∧ e.1 = key) ∧
      (o = none → ∀ e ∈ node.entries, e.1 ≠ key) := by
  obtain ⟨o, hends, hspec⟩ := kv_ends hs key
  exact ⟨o, hends, findKvLoop_of_ends hends (Nat.sub_le _ _), hspec⟩

end LeafNode

/-- **Both searches are correct binary searches.** `find_child_index` ends and
returns the last entry up to the key; `find_kv` ends and returns an entry with
the key, or nothing if no entry has it. -/
theorem searches_correct (B : Build) (key : Key) :
    (∀ node : InternalNode, node.entries ≠ [] →
      (node.entries.Pairwise fun a b => a.1 ≤ b.1) →
      (∀ e, node.entries.head? = some e → e.1 = invalidKey) →
      ∃ i, Ends (InternalNode.childIndexTurn node.entries key) (0, node.entries.length) (i + 1) ∧
        node.findChildIndex B key = .ok i ∧
        (∃ e, node.entries[i]? = some e ∧ e.1 ≤ key) ∧
        ∀ j e, node.entries[j]? = some e → e.1 ≤ key → j ≤ i) ∧
    (∀ node : LeafNode, (node.entries.Pairwise fun a b => a.1 ≤ b.1) →
      ∃ o, Ends (LeafNode.kvTurn node.entries key) (0, node.entries.length) o ∧
        node.findKv key = .ok o ∧ (o = none ↔ ∀ e ∈ node.entries, e.1 ≠ key) ∧
        ∀ e, o = some e → e ∈ node.entries ∧ e.1 = key) := by
  refine ⟨fun node hne hs hfirst => ?_, fun node hs => ?_⟩
  · obtain ⟨c, rest, hentries⟩ := List.exists_cons_of_ne_nil hne
    have hhead : node.entries[0]? = some c := by rw [hentries]; rfl
    have hc : c.1 ≤ key := by
      rw [hfirst c (by rw [hentries]; rfl)]
      exact bot_le (a := key)
    obtain ⟨i, hends, hfind, hnarrowed⟩ := InternalNode.findChildIndex_spec B node hs hhead hc
    refine ⟨i, hends, hfind, ?_, fun j e hj hle => ?_⟩
    · have hlt : i < node.entries.length := hnarrowed.high_le
      obtain ⟨e, he⟩ : ∃ e, node.entries[i]? = some e := ⟨_, List.getElem?_eq_getElem hlt⟩
      exact ⟨e, he, hnarrowed.below i e (Nat.lt_succ_self i) he⟩
    · by_contra hgt
      exact absurd hle (not_le.mpr (hnarrowed.above j e (not_le.mp hgt) hj))
  · obtain ⟨o, hends, hfind, hsome, hnone⟩ := LeafNode.findKv_spec key hs
    refine ⟨o, hends, hfind, ⟨hnone, fun hno => ?_⟩, hsome⟩
    cases ho : o with
    | none => rfl
    | some e =>
        obtain ⟨hmem, hkey⟩ := hsome e ho
        exact absurd hkey (hno e hmem)

end StorageEngine
