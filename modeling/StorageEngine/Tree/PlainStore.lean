import StorageEngine.Lib.BPlusTree
import StorageEngine.Tree.BTree

/-!
A page store that is a plain map.

`new_page` hands out the ids of a supply one after the other, with a page of
zeros each. The supply is any list of different ids below `INVALID_PAGE_ID`;
a program that asks for more ends with `outOfIds`.
-/

namespace StorageEngine

open Lib Lib.BPlus

/-- The ids `new_page` returns, in order. -/
structure IdSupply where
  ids : List PageId
  nodup : ids.Nodup
  valid : invalidPageId ∉ ids

/-- The ids a buffer pool hands out first: 0, 1, 2 and so on. -/
def IdSupply.counting (n : ℕ) (hn : n ≤ 4294967295) : IdSupply where
  ids := (List.range n).map UInt32.ofNat
  nodup := by
    refine List.Nodup.map_on (fun a ha b hb hab => ?_) List.nodup_range
    have hlt : ∀ i ∈ List.range n, i < UInt32.size := fun i hi =>
      (List.mem_range.mp hi).trans_le (hn.trans (by decide))
    rw [← UInt32.toNat_ofNat_of_lt' (hlt a ha), hab, UInt32.toNat_ofNat_of_lt' (hlt b hb)]
  valid := by
    intro hmem
    obtain ⟨i, hi, heq⟩ := List.mem_map.mp hmem
    have hin := List.mem_range.mp hi
    have hlt : i < UInt32.size := hin.trans_le (hn.trans (by decide))
    have hnat := congrArg UInt32.toNat heq
    rw [UInt32.toNat_ofNat_of_lt' hlt] at hnat
    have hinvalid : invalidPageId.toNat = 4294967295 := rfl
    omega

/-- The state of a plain store: the number of ids handed out, the bytes of
their pages, and the pages with a live guard. -/
structure PlainStore (I : IdSupply) where
  next : ℕ
  content : PageId → Page
  held : Finset PageId

namespace PlainStore

variable {I : IdSupply}

def new (I : IdSupply) : PlainStore I where
  next := 0
  content := fun _ => .zero pageSize
  held := ∅

/-- The ids handed out so far. -/
def issued (st : PlainStore I) : List PageId := I.ids.take st.next

/-- The ids that are left. -/
def fresh (st : PlainStore I) : List PageId := I.ids.drop st.next

def alloc (st : PlainStore I) (p : PageId) : PlainStore I :=
  { st with
    next := st.next + 1
    content := Function.update st.content p (.zero pageSize) }

def hold (st : PlainStore I) (p : PageId) : PlainStore I :=
  { st with held := insert p st.held }

def release (st : PlainStore I) (p : PageId) : PlainStore I :=
  { st with held := st.held.erase p }

def put (st : PlainStore I) (p : PageId) (page : Page) : PlainStore I :=
  { st with content := Function.update st.content p page }

section Fields

variable (st : PlainStore I) (p : PageId) (page : Page)

@[simp] theorem content_hold : (st.hold p).content = st.content := rfl

@[simp] theorem content_release : (st.release p).content = st.content := rfl

@[simp] theorem content_alloc :
    (st.alloc p).content = Function.update st.content p (.zero pageSize) := rfl

@[simp] theorem content_put :
    (st.put p page).content = Function.update st.content p page := rfl

@[simp] theorem held_hold : (st.hold p).held = insert p st.held := rfl

@[simp] theorem held_release : (st.release p).held = st.held.erase p := rfl

@[simp] theorem held_alloc : (st.alloc p).held = st.held := rfl

@[simp] theorem held_put : (st.put p page).held = st.held := rfl

@[simp] theorem issued_hold : (st.hold p).issued = st.issued := rfl

@[simp] theorem issued_release : (st.release p).issued = st.issued := rfl

@[simp] theorem issued_put : (st.put p page).issued = st.issued := rfl

@[simp] theorem fresh_hold : (st.hold p).fresh = st.fresh := rfl

@[simp] theorem fresh_release : (st.release p).fresh = st.fresh := rfl

@[simp] theorem fresh_put : (st.put p page).fresh = st.fresh := rfl

end Fields

/-- What a command does. -/
def step : ∀ β, PageCmd β → PlainStore I → Except Abort (β × PlainStore I)
  | _, .newPage, st =>
      match I.ids[st.next]? with
      | none => .error .outOfIds
      | some p => .ok (p, st.alloc p)
  | _, .check _ p, st =>
      if p ∈ st.issued ∧ p ∉ st.held then .ok ((), st.hold p) else .error .misuse
  | _, .data p, st => if p ∈ st.held then .ok (st.content p, st) else .error .misuse
  | _, .dataMut p, st => if p ∈ st.held then .ok (st.content p, st) else .error .misuse
  | _, .store p page, st =>
      if p ∈ st.held then .ok ((), st.put p page) else .error .misuse
  | _, .drop p, st => if p ∈ st.held then .ok ((), st.release p) else .error .misuse

/-- The run of a program of the tree on a plain store. -/
abbrev exec {α : Type} (p : PageProg α) (st : PlainStore I) : Except Abort (α × PlainStore I) :=
  p.run step st

/-! ### One command after the other -/

section Exec

variable {α : Type} {st : PlainStore I} {p : PageId}

theorem exec_newPage {f : PageId → PageProg α} {rest : List PageId}
    (h : st.fresh = p :: rest) :
    exec (PageProg.newPage >>= f) st = exec (f p) (st.alloc p) := by
  have hp : I.ids[st.next]? = some p := by
    rw [← List.head?_drop]
    exact congrArg List.head? h
  exact Prog.run_call_bind_ok (by simp only [step, hp])

theorem exec_newPage_nil {f : PageId → PageProg α} (h : st.fresh = []) :
    exec (PageProg.newPage >>= f) st = .error .outOfIds := by
  have hp : I.ids[st.next]? = none := by
    rw [← List.head?_drop]
    exact congrArg List.head? h
  exact Prog.run_call_bind_error (by simp only [step, hp])

theorem exec_check {kind : GuardKind} {f : Unit → PageProg α} (hp : p ∈ st.issued)
    (hheld : p ∉ st.held) :
    exec (PageProg.check kind p >>= f) st = exec (f ()) (st.hold p) :=
  Prog.run_call_bind_ok (by simp only [step, hp, hheld, not_false_eq_true, and_self, if_true])

theorem exec_data {f : Page → PageProg α} (hp : p ∈ st.held) :
    exec (PageProg.data p >>= f) st = exec (f (st.content p)) st :=
  Prog.run_call_bind_ok (by simp only [step, hp, if_true])

theorem exec_dataMut {f : Page → PageProg α} (hp : p ∈ st.held) :
    exec (PageProg.dataMut p >>= f) st = exec (f (st.content p)) st :=
  Prog.run_call_bind_ok (by simp only [step, hp, if_true])

theorem exec_store {page : Page} {f : Unit → PageProg α} (hp : p ∈ st.held) :
    exec (PageProg.store p page >>= f) st = exec (f ()) (st.put p page) :=
  Prog.run_call_bind_ok (by simp only [step, hp, if_true])

theorem exec_drop {f : Unit → PageProg α} (hp : p ∈ st.held) :
    exec (PageProg.drop p >>= f) st = exec (f ()) (st.release p) :=
  Prog.run_call_bind_ok (by simp only [step, hp, if_true])

theorem exec_attempt {β : Type} {x : Except Panic β} {b : β} {f : β → PageProg α}
    (h : x = .ok b) : exec (PageProg.attempt x >>= f) st = exec (f b) st := by
  subst h
  rfl

/-- All guards of a stack dropped. -/
theorem exec_dropAll {ps : List PageId} {f : Unit → PageProg α} :
    ∀ {st : PlainStore I}, ps.Nodup → (∀ q ∈ ps, q ∈ st.held) →
      exec (PageProg.dropAll ps >>= f) st =
        exec (f ()) { st with held := st.held \ ps.toFinset } := by
  induction ps with
  | nil =>
      intro st _ _
      simp only [List.toFinset_nil, Finset.sdiff_empty]
      rfl
  | cons p ps ih =>
      intro st hnodup hheld
      obtain ⟨hp, hnodup⟩ := List.nodup_cons.mp hnodup
      have hstep : exec (PageProg.dropAll (p :: ps) >>= f) st =
          exec (PageProg.dropAll ps >>= f) (st.release p) :=
        exec_drop (f := fun _ => PageProg.dropAll ps >>= f) (hheld p (by simp))
      rw [hstep, ih hnodup]
      · have hset : st.held.erase p \ ps.toFinset = st.held \ (p :: ps).toFinset := by
          ext q
          simp only [Finset.mem_sdiff, Finset.mem_erase, List.toFinset_cons, Finset.mem_insert]
          tauto
        rw [← hset]
        rfl
      · intro q hq
        refine Finset.mem_erase.mpr ⟨?_, hheld q (by simp [hq])⟩
        rintro rfl
        exact hp hq

end Exec

/-! ### Ids -/

section Ids

variable {st : PlainStore I} {p : PageId}

theorem mem_issued_alloc {rest : List PageId} (h : st.fresh = p :: rest) {q : PageId} :
    q ∈ (st.alloc p).issued ↔ q = p ∨ q ∈ st.issued := by
  have hp : I.ids[st.next]? = some p := by
    rw [← List.head?_drop]
    exact congrArg List.head? h
  show q ∈ I.ids.take (st.next + 1) ↔ q = p ∨ q ∈ st.issued
  rw [List.take_add_one, hp]
  simp only [Option.toList_some, List.mem_append, List.mem_singleton]
  exact or_comm

theorem fresh_alloc {rest : List PageId} (h : st.fresh = p :: rest) :
    (st.alloc p).fresh = rest := by
  show I.ids.drop (st.next + 1) = rest
  rw [← List.tail_drop]
  exact congrArg List.tail h

theorem notMem_issued {rest : List PageId} (h : st.fresh = p :: rest) : p ∉ st.issued := by
  have hnodup : (st.issued ++ st.fresh).Nodup := by
    rw [issued, fresh, List.take_append_drop]
    exact I.nodup
  rw [h] at hnodup
  intro hp
  exact List.disjoint_of_nodup_append hnodup hp (by simp)

theorem mem_issued_new {rest : List PageId} (h : st.fresh = p :: rest) :
    p ∈ (st.alloc p).issued := (mem_issued_alloc h).mpr (Or.inl rfl)

theorem ne_new {rest : List PageId} (h : st.fresh = p :: rest) {q : PageId}
    (hq : q ∈ st.issued) : q ≠ p := by
  rintro rfl
  exact notMem_issued h hq

theorem issued_eq_append {st' : PlainStore I} {used : List PageId}
    (h : st.fresh = used ++ st'.fresh) : st'.issued = st.issued ++ used := by
  have heq : st'.issued ++ st'.fresh = st.issued ++ used ++ st'.fresh := by
    rw [List.append_assoc, ← h, issued, fresh, issued, fresh, List.take_append_drop,
      List.take_append_drop]
  exact List.append_cancel_right heq

theorem issued_nodup (st : PlainStore I) : st.issued.Nodup :=
  I.nodup.sublist (List.take_sublist _ _)

theorem ne_invalid (hp : p ∈ st.issued) : p ≠ invalidPageId := by
  rintro rfl
  exact I.valid (List.mem_of_mem_take hp)

end Ids

end PlainStore

end StorageEngine
