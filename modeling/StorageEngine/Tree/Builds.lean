import StorageEngine.Pool.Builds
import StorageEngine.Tree.Operations
import StorageEngine.Tree.PoolStore

/-!
The B+Tree in debug and in release builds.

The only arithmetic of the tree that can overflow is the `low - 1` of
`find_child_index`, and its programs differ in nothing else between builds. On
a pool they are then the same up to an overflow of the pool or of the search.
-/

namespace StorageEngine

open Lib

theorem InternalNode.findChildIndex_build (B : Build) (node : InternalNode) (key : Key) :
    SameUnless .overflow (node.findChildIndex ⟨true⟩ key) (node.findChildIndex B key) :=
  .next _ fun low => B.subUsize_build low 1

namespace BTree

open PageProg

variable (B : Build) (S : KeySort) (tree : BTree) (key : Key)

/-- A computation of the source, as a command-free program. -/
theorem attempt_build {α : Type} {x y : Except Panic α} (h : SameUnless .overflow x y) :
    Prog.SameUnless (.panic .overflow) (attempt x) (attempt y) := .lift (h.mapError _)

theorem findLeafFrom_build (turns : ℕ) : ∀ id,
    Prog.SameUnless (.panic .overflow) (findLeafFrom ⟨true⟩ key turns id)
      (findLeafFrom B key turns id) := by
  induction turns with
  | zero => exact fun id => .refl _
  | succ turns ih =>
      intro id
      refine .next _ fun _ => .next _ fun bytes => .next _ fun nodeType => ?_
      refine .ite (.refl _) (.ite ?_ (.refl _))
      refine .next _ fun internal => ?_
      refine (attempt_build (internal.findChildIndex_build B key)).bind fun slot => ?_
      exact .next _ fun entry => .next _ fun _ => ih entry.2

theorem findLeaf_build : Prog.SameUnless (.panic .overflow) (tree.findLeaf ⟨true⟩ key)
    (tree.findLeaf B key) := by
  refine .next _ fun _ => .next _ fun bytes => .next _ fun root => .next _ fun _ => ?_
  exact findLeafFrom_build B key maxTurns root

theorem find_sameUnless : Prog.SameUnless (.panic .overflow) (tree.find ⟨true⟩ key)
    (tree.find B key) :=
  (findLeaf_build B tree key).bind fun _ => .refl _

theorem scanAll_build : Prog.SameUnless (.panic .overflow) (tree.scanAll ⟨true⟩ key)
    (tree.scanAll B key) :=
  ((findLeaf_build B tree key).bind fun _ => .refl _).bind fun _ => .refl _

theorem descend_build (turns : ℕ) : ∀ internal slot pathStack,
    Prog.SameUnless (.panic .overflow) (descend ⟨true⟩ tree key turns internal slot pathStack)
      (descend B tree key turns internal slot pathStack) := by
  induction turns with
  | zero => exact fun internal slot pathStack => .refl _
  | succ turns ih =>
      intro internal slot pathStack
      rw [descend, descend]
      refine .next _ fun entry => .next _ fun _ => .next _ fun bytes => .next _ fun nodeType => ?_
      refine .ite (.next _ fun node => ?_) (.next _ ?_)
      refine (attempt_build (node.findChildIndex_build B key)).bind fun slot => .next _ ?_
      -- the rest of a turn, after the search and without one
      all_goals
        rintro ⟨internal, slot⟩
        refine .next _ fun _ => .ite (.refl _) ?_
        refine .next _ fun _ => .next _ fun bytes => .next _ fun node => ?_
        exact .ite (.next _ fun _ => ih _ _ _) (ih _ _ _)

theorem findPath_build : Prog.SameUnless (.panic .overflow) (tree.findPath ⟨true⟩ key)
    (tree.findPath B key) := by
  refine .next _ fun _ => .next _ fun bytes => .next _ fun nodeType => ?_
  refine .ite (.refl _) (.ite ?_ (.refl _))
  refine .next _ fun bytes => .next _ fun internal => ?_
  refine (attempt_build (internal.findChildIndex_build B key)).bind fun slot => ?_
  exact descend_build B tree key maxTurns internal slot [tree.rootPageId]

theorem insert_build (rid : RecordId) :
    Prog.SameUnless (.panic .overflow) (tree.insert ⟨true⟩ S key rid)
      (tree.insert B S key rid) :=
  .ite (.refl _) ((findPath_build B tree key).bind fun _ => .refl _)

theorem serve_build (op : IndexOp) :
    Prog.SameUnless (.panic .overflow) (tree.serve ⟨true⟩ S op) (tree.serve B S op) := by
  cases op with
  | insert key rid => exact (insert_build B S tree key rid).bind fun _ => .refl _
  | find key => exact (find_sameUnless B tree key).bind fun _ => .refl _
  | scan key => exact (scanAll_build B tree key).bind fun _ => .refl _

theorem serveAll_build (ops : List IndexOp) : ∀ tree : BTree,
    Prog.SameUnless (.panic .overflow) (tree.serveAll ⟨true⟩ S ops) (tree.serveAll B S ops) := by
  induction ops with
  | nil => exact fun tree => .refl _
  | cons op ops ih =>
      intro tree
      exact (serve_build B S tree op).bind fun out => (ih out.1).bind fun _ => .refl _

theorem life_build (L M : ℕ) (rid : RecordId) (ops : List IndexOp) :
    Prog.SameUnless (.panic .overflow) (life ⟨true⟩ S L M key rid ops)
      (life B S L M key rid ops) :=
  .next _ fun tree => (insert_build B S tree key rid).bind fun tree => serveAll_build B S ops tree

end BTree

namespace PoolStore

theorem step_build (B : Build) (order : HashOrder) (β : Type) (c : PageCmd β) (s : Session) :
    SameUnless (.panic .overflow) (step ⟨true⟩ order β c s) (step B order β c s) := by
  cases c with
  | newPage => exact .refl _
  | check kind p =>
      exact ((BufferPoolManager.checkPage_build B order s.pool kind p).mapError _).bind
        fun _ => .refl _
  | data p => exact .refl _
  | dataMut p => exact .refl _
  | store p page => exact .refl _
  | drop p =>
      refine .next _ fun g => ?_
      exact ((BufferPoolManager.dropGuard_build B s.pool g).mapError _).bind fun _ => .refl _

end PoolStore

end StorageEngine
