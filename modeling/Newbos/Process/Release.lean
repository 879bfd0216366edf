import Newbos.Paging.CreateEffects
import Newbos.Process.Initialised

/-!
# When no process can be created

`process_create` returns a null pointer in several places and gives nothing
back in any of them.  It leaves no trace only when there was nothing to take:
no record, and no directory that `pdt_create` has not given back itself.
-/

namespace Newbos

/-- The same frames are free, and the kernel's addresses lead to the same
frames. -/
structure Traceless (layout : Layout) (machine after : Machine) : Prop where
  frames : ∀ frame,
    FreeFrame layout after frame ↔ FreeFrame layout machine frame
  translations : ∀ vaddr, after.translate layout.kernelPdt vaddr =
    machine.translate layout.kernelPdt vaddr

/-- The states in which `pdt_create` fails without a trace. -/
inductive FailsTraceless (layout : Layout) (machine : Machine) : Prop where
  /-- The directory has the last frame, its page cannot be mapped, and the
  frame is given back. -/
  | restored : (∃ frame, FreeFrame layout machine frame) →
      Ownership.PageMapFails layout pdtSize
        (pfaAllocate layout 1 machine).2 →
      FailsTraceless layout machine
  /-- There is no frame, and freeing address 0 flips no bit of a
  translation. -/
  | spared : (¬∃ frame, FreeFrame layout machine frame) →
      Ownership.PageMapFails layout pdtSize machine →
      (∀ vaddr, (pfaFree layout 0 machine).translate layout.kernelPdt vaddr =
        machine.translate layout.kernelPdt vaddr) →
      FailsTraceless layout machine
  /-- There is no frame and no page, and the first frame is cleared. -/
  | cleared : (¬∃ frame, FreeFrame layout machine frame) →
      ¬KernelPageFree layout machine →
      (machine.mem 0 0).isPresent = false →
      FailsTraceless layout machine

/-! ## `pdt_create` -/

/-- The ways in which `pdt_create` fails. -/
inductive CreateFailure (layout : Layout) (machine : Machine) :
    Machine → Prop where
  | restored (hasFrame : ∃ frame, FreeFrame layout machine frame)
      (fails : Ownership.PageMapFails layout pdtSize
        (pfaAllocate layout 1 machine).2) :
      CreateFailure layout machine machine
  | lost {frame : Nat} {after : Machine}
      (wasFree : FreeFrame layout machine frame)
      (works : ¬Ownership.PageMapFails layout pdtSize
        (pfaAllocate layout 1 machine).2)
      (freesNone : FreesNone layout machine after)
      (taken : ¬FreeFrame layout after frame) :
      CreateFailure layout machine after
  | nullFreed (noFrame : ¬∃ frame, FreeFrame layout machine frame)
      (fails : Ownership.PageMapFails layout pdtSize machine) :
      CreateFailure layout machine (pfaFree layout 0 machine)
  | cleared (noFrame : ¬∃ frame, FreeFrame layout machine frame)
      (full : ¬KernelPageFree layout machine)
      (absent : (machine.mem 0 0).isPresent = false) :
      CreateFailure layout machine (machine.zeroFrame 0)
  | mapped {vaddr : Nat} {after : Machine}
      (noFrame : ¬∃ frame, FreeFrame layout machine frame)
      (page : KernelPageFree layout machine)
      (works : ¬Ownership.PageMapFails layout pdtSize machine)
      (freesNone : FreesNone layout machine after)
      (was : machine.translate layout.kernelPdt vaddr = none)
      (walk : after.translate layout.kernelPdt vaddr ≠ none) :
      CreateFailure layout machine after

section Directory

variable {layout : Layout} {exempt : Entry → Prop} {spaces : Spaces}
  {machine after : Machine}

theorem Traceless.refl (layout : Layout) (machine : Machine) :
    Traceless layout machine machine :=
  ⟨fun _ => Iff.rfl, fun _ => rfl⟩

variable (ok : layout.BootOk)
include ok

theorem CreateFailure.freesNone
    (failure : CreateFailure layout machine after) :
    FreesNone layout machine after := by
  cases failure with
  | restored => exact .of_bits rfl
  | lost _ _ freesNone => exact freesNone
  | nullFreed =>
      exact fun frame => (pfaFree_null ok.framesOk machine frame).mp
  | cleared => exact .of_bits rfl
  | mapped _ _ _ freesNone => exact freesNone

end Directory

/-! ## `process_create` -/

section Release

variable {layout : Layout} {exempt : Entry → Prop} {image : KernelImage}
  {spaces : Spaces} {free : Finset Nat} {live : List Nat}
  {kernel middle after : Kernel} {fuel : Nat}
  (ok : layout.BootOk)
include ok

theorem Kernel.kmalloc_refused
    (tracked :
      HeapTracked image (initFreeList image.base kernel.heap) free live)
    (noFrames : (pfaAllocate layout (growthPages (requestUnits processSize))
      kernel.machine).1 = 0)
    (noneFits : NoneFits (requestUnits processSize)
      (initFreeList image.base kernel.heap).mem free) {p : Nat}
    (returned : kernel.kmalloc layout image.base fuel processSize =
      some (p, middle)) : p = 0 ∧ middle.machine = kernel.machine := by
  simp only [Kernel.kmalloc, Option.bind_eq_bind,
    Option.bind_eq_some_iff] at returned
  obtain ⟨⟨block, heap, machine⟩, taken, result⟩ := returned
  cases result
  obtain ⟨isNull, _, same⟩ := Newbos.kmalloc_refused ok.framesOk
    (tracked.invariant.mono (Nat.zero_le 2)) (by decide) noFrames noneFits
    taken
  exact ⟨isNull, same⟩

/-- There is nothing to take: no block and no frames for the record, and
`pdt_create` fails without a trace when the record has been written through a
null pointer. -/
structure NothingToTake (layout : Layout) (image : KernelImage)
    (free : Finset Nat) (fuel : Nat) (kernel : Kernel) : Prop where
  noFrames : (pfaAllocate layout (growthPages (requestUnits processSize))
    kernel.machine).1 = 0
  noneFits : NoneFits (requestUnits processSize)
    (initFreeList image.base kernel.heap).mem free
  noDirectory : ∃ id, schedulerNextPid fuel kernel = some id ∧
    FailsTraceless layout (kernel.initializeProcess 0 id).machine

/-- A refused record leads to the state that the condition is about. -/
theorem NothingToTake.written
    (nothing : NothingToTake layout image free fuel kernel)
    (tracked :
      HeapTracked image (initFreeList image.base kernel.heap) free live)
    {p id : Nat}
    (allocated : kernel.kmalloc layout image.base fuel processSize =
      some (p, middle)) (counted : schedulerNextPid fuel middle = some id) :
    p = 0 ∧ middle.machine = kernel.machine ∧
      FailsTraceless layout (middle.initializeProcess p id).machine := by
  obtain ⟨queue, processes, _⟩ := Kernel.kmalloc_keeps allocated
  obtain ⟨rfl, same⟩ := Kernel.kmalloc_refused ok tracked nothing.noFrames
    nothing.noneFits allocated
  obtain ⟨other, numbered, fails⟩ := nothing.noDirectory
  rw [schedulerNextPid, queue, processes, ← schedulerNextPid, numbered]
    at counted
  cases counted
  have sameMachine : (middle.initializeProcess 0 id).machine =
      (kernel.initializeProcess 0 id).machine := by
    simp only [Kernel.initializeProcess, Kernel.updateProcess, same]
  rw [sameMachine]
  exact ⟨rfl, same, fails⟩

end Release

end Newbos
