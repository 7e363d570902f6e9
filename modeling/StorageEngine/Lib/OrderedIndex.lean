import Mathlib

/-!
What an ordered index with repeated keys is for.

An index is a bag of records. It is asked to insert a record, to find one
with a key, and to list the records from a key on. `Allows` says which
replies are right; where equal keys leave a choice it allows each of them.
`Answers` extends it to the replies to operations in turn.
-/

namespace StorageEngine.Lib

universe u

/-- The records of an index. -/
abbrev Index (K V : Type u) : Type u := Multiset (K × V)

namespace Index

variable {K V : Type u}

inductive Op (K V : Type u)
  | insert (key : K) (value : V)
  | find (key : K)
  | scan (key : K)

inductive Reply (K V : Type u)
  | inserted
  | found (result : Option (K × V))
  | scanned (records : List (K × V))

/-- The records after an operation. -/
def after (m : Index K V) : Op K V → Index K V
  | .insert key value => (key, value) ::ₘ m
  | .find _ => m
  | .scan _ => m

/-- The number of records the operations insert. -/
def inserts (ops : List (Op K V)) : ℕ :=
  ops.countP fun op => match op with
    | .insert _ _ => true
    | _ => false

theorem inserts_cons (op : Op K V) (ops : List (Op K V)) :
    inserts (op :: ops) = inserts [op] + inserts ops := by
  rw [inserts, ← List.singleton_append, List.countP_append]
  rfl

theorem card_after (m : Index K V) (op : Op K V) :
    Multiset.card (m.after op) = Multiset.card m + inserts [op] := by
  cases op with
  | insert key value => exact Multiset.card_cons _ m
  | find key => rfl
  | scan key => rfl

theorem card_foldl_after (ops : List (Op K V)) : ∀ m : Index K V,
    Multiset.card (ops.foldl after m) = Multiset.card m + inserts ops := by
  induction ops with
  | nil => exact fun m => rfl
  | cons op ops ih =>
      intro m
      rw [List.foldl_cons, ih, card_after, inserts_cons op ops, Nat.add_assoc]

section Allows

variable [LinearOrder K]

/-- A lookup finds a record with the key if there is one. -/
def Finds (m : Index K V) (key : K) (result : Option (K × V)) : Prop :=
  (result = none ↔ ∀ r ∈ m, r.1 ≠ key) ∧ ∀ r, result = some r → r ∈ m ∧ r.1 = key

/-- A scan lists the records in order, each of them once, but for a part that
comes before those it lists. No record with a greater key is left out, and
none with the key itself unless there are several of them. -/
def Scans (m : Index K V) (key : K) (records : List (K × V)) : Prop :=
  records.Pairwise (fun a b => a.1 ≤ b.1) ∧ ∃ skipped : Multiset (K × V),
    m = skipped + records ∧ (∀ a ∈ skipped, ∀ b ∈ records, a.1 ≤ b.1) ∧
      (∀ a ∈ skipped, a.1 ≤ key) ∧
      ∀ a ∈ skipped, a.1 = key → ∃ b ∈ records, b.1 = key

/-- The replies an operation may have. -/
def Allows (m : Index K V) : Op K V → Reply K V → Prop
  | .insert _ _, .inserted => True
  | .find key, .found result => m.Finds key result
  | .scan key, .scanned records => m.Scans key records
  | _, _ => False

/-- The replies to operations in turn are right, each at its time. -/
def Answers : Index K V → List (Op K V) → List (Reply K V) → Prop
  | _, [], [] => True
  | m, op :: ops, reply :: replies => m.Allows op reply ∧ Answers (m.after op) ops replies
  | _, _, _ => False

theorem Answers.append {ops' : List (Op K V)} {replies' : List (Reply K V)} :
    ∀ {ops : List (Op K V)} {replies : List (Reply K V)} {m : Index K V},
      Answers m ops replies → Answers (ops.foldl after m) ops' replies' →
        Answers m (ops ++ ops') (replies ++ replies')
  | [], [], _, _, h' => h'
  | _ :: _, _ :: _, _, ⟨hfirst, hrest⟩, h' => ⟨hfirst, hrest.append h'⟩

end Allows

end Index

end StorageEngine.Lib
