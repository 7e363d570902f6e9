import StorageEngine.Lib.SameUnless
import StorageEngine.Pool.BufferPool

/-!
Debug and release builds.

A debug build panics where an integer operation overflows, a release build
wraps and goes on. This is all they differ in: each call does the same in both,
its other panics included, unless it overflows in the debug build.
-/

namespace StorageEngine

open Lib

namespace Build

theorem addU32_build (B : Build) (x y : ℕ) :
    SameUnless .overflow (addU32 ⟨true⟩ x y) (B.addU32 x y) := by
  rw [addU32, addU32]
  split
  · exact .refl _
  · exact .failed _

theorem subU32_build (B : Build) (x y : ℕ) :
    SameUnless .overflow (subU32 ⟨true⟩ x y) (B.subU32 x y) := by
  rw [subU32, subU32]
  split
  · exact .refl _
  · exact .failed _

theorem subUsize_build (B : Build) (x y : ℕ) :
    SameUnless .overflow (subUsize ⟨true⟩ x y) (B.subUsize x y) := by
  rw [subUsize, subUsize]
  split
  · exact .refl _
  · exact .failed _

end Build

namespace ArcReplacer

variable (B : Build) (r : ArcReplacer)

theorem setEvictable_build (f : FrameId) :
    SameUnless .overflow (r.setEvictable ⟨true⟩ f) (r.setEvictable B f) :=
  (B.addU32_build _ _).bind fun _ => .refl _

theorem increaseTarget_build :
    SameUnless .overflow (r.increaseTarget ⟨true⟩) (r.increaseTarget B) := by
  rw [increaseTarget, increaseTarget]
  refine SameUnless.ite ?_ (.next _ fun byOne => ?_)
  · refine (B.addU32_build _ _).bind fun target => .next _ fun size => ?_
    refine SameUnless.next _ fun byOne => SameUnless.ite (B.addU32_build _ _) ?_
    refine .next _ fun increase => (B.addU32_build _ _).bind fun target => ?_
    exact .next _ fun size => SameUnless.ite (B.addU32_build _ _) (.refl _)
  · refine SameUnless.ite (B.addU32_build _ _) (.next _ fun increase => ?_)
    refine (B.addU32_build _ _).bind fun target => .next _ fun size => ?_
    exact SameUnless.ite (B.addU32_build _ _) (.refl _)

theorem decreaseTarget_build :
    SameUnless .overflow (r.decreaseTarget ⟨true⟩) (r.decreaseTarget B) := by
  rw [decreaseTarget, decreaseTarget]
  refine SameUnless.ite ?_ (.next _ fun byOne => ?_)
  · refine (B.subU32_build _ _).bind fun target => .next _ fun byOne => ?_
    refine SameUnless.ite (B.subU32_build _ _) (.next _ fun decrease => ?_)
    exact SameUnless.ite (B.subU32_build _ _) (.refl _)
  · refine SameUnless.ite (B.subU32_build _ _) (.next _ fun decrease => ?_)
    exact SameUnless.ite (B.subU32_build _ _) (.refl _)

theorem recordAccess_build (f : FrameId) (p : PageId) :
    SameUnless .overflow (r.recordAccess ⟨true⟩ f p) (r.recordAccess B f p) := by
  refine .ite (.refl _) (.ite ?_ (.ite ?_ (.refl _)))
  · exact (increaseTarget_build B _).bind fun _ => .refl _
  · exact (decreaseTarget_build B _).bind fun _ => .refl _

theorem evictFromMruGhost_build :
    SameUnless .overflow (r.evictFromMruGhost ⟨true⟩) (r.evictFromMruGhost B) := by
  rw [evictFromMruGhost, evictFromMruGhost]
  cases lastEvictable r.evictablePages r.mru with
  | none => exact .refl _
  | some e => exact (B.subU32_build _ _).bind fun _ => .refl _

theorem evictFromMfuGhost_build :
    SameUnless .overflow (r.evictFromMfuGhost ⟨true⟩) (r.evictFromMfuGhost B) := by
  rw [evictFromMfuGhost, evictFromMfuGhost]
  cases lastEvictable r.evictablePages r.mfu with
  | none => exact .refl _
  | some e => exact (B.subU32_build _ _).bind fun _ => .refl _

theorem evict_build : SameUnless .overflow (r.evict ⟨true⟩) (r.evict B) := by
  refine .ite (.bind (evictFromMruGhost_build B r) ?_)
    (.bind (evictFromMfuGhost_build B r) ?_)
  · rintro ⟨evicted, r'⟩
    cases evicted with
    | some f => exact .refl _
    | none => exact evictFromMfuGhost_build B r'
  · rintro ⟨evicted, r'⟩
    cases evicted with
    | some f => exact .refl _
    | none => exact evictFromMruGhost_build B r'

end ArcReplacer

namespace BufferPoolManager

variable (B : Build) (order : HashOrder) (bpm : BufferPoolManager)

theorem newGuard_build (kind : GuardKind) (p : PageId) (f : FrameId) :
    SameUnless .overflow (bpm.newGuard ⟨true⟩ kind p f) (bpm.newGuard B kind p f) :=
  (ArcReplacer.recordAccess_build B _ f p).bind fun _ => .refl _

theorem dropGuard_build (g : Guard) :
    SameUnless .overflow (bpm.dropGuard ⟨true⟩ g) (bpm.dropGuard B g) :=
  .ite ((ArcReplacer.setEvictable_build B _ _).bind fun _ => .refl _) (.refl _)

theorem evictFrame_build :
    SameUnless .overflow (bpm.evictFrame ⟨true⟩ order) (bpm.evictFrame B order) :=
  (ArcReplacer.evict_build B _).bind fun _ => .refl _

theorem loadPage_build (kind : GuardKind) (p : PageId) :
    SameUnless .overflow (bpm.loadPage ⟨true⟩ kind p) (bpm.loadPage B kind p) := by
  rw [loadPage, loadPage]
  cases bpm.freeFrames with
  | nil => exact .refl _
  | cons f rest =>
      refine SameUnless.next _ fun reply => .next _ fun header => ?_
      exact .next _ fun data => newGuard_build B _ kind p f

theorem checkPage_build (kind : GuardKind) (p : PageId) :
    SameUnless .overflow (bpm.checkPage ⟨true⟩ order kind p) (bpm.checkPage B order kind p) := by
  rw [checkPage, checkPage]
  cases bpm.pageTable.lookup p with
  | some f => exact .next _ fun _ => newGuard_build B bpm kind p f
  | none =>
      refine .ite (loadPage_build B bpm kind p) ?_
      exact (evictFrame_build B order bpm).bind fun bpm' => loadPage_build B bpm' kind p

end BufferPoolManager

end StorageEngine
