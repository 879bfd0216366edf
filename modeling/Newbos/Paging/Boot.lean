import Newbos.Frames.Safety
import Newbos.Paging.Rounds

/-!
# The boot directory

What `boot.s` leaves behind: one supervisor page of 4 MiB at address 0, and the
kernel's own page table in slot 768.
-/

namespace Newbos

/-- The kernel is loaded above the first frame. -/
structure Layout.BootOk (layout : Layout) : Prop extends layout.Ok where
  kernelPdtPos : layout.kernelPdt ≠ 0
  kernelPtPos : layout.kernelPt ≠ 0

/-- The first word of `kernel_pdt` in `boot.s`. -/
def identityEntry : Entry :=
  { config := 0x8B
    lowAddr := 0
    highAddr := 0 }

/-- Memory as `boot.s` leaves it, with `pages` kernel pages mapped. -/
def bootMachine (layout : Layout) (pages : Nat) : Machine :=
  { mem := fun frame index =>
      if frame = layout.kernelPdt then
        if index = 0 then identityEntry
        else if index = kernelPtPdtIdx then
          pdtEntry (fourKb * layout.kernelPt) 0 1 0
        else Entry.empty
      else if frame = layout.kernelPt ∧ index < pages then
        ptEntry (fourKb * index) 1 0
      else Entry.empty
    bits := fun _ => 0xFFFFFFFF#32
    active := layout.kernelPdt
    faulted := false }

/-- The boot directory.  Memory outside the kernel's structures is not
constrained. -/
structure Boot (layout : Layout) (machine : Machine) : Prop where
  identity : machine.mem layout.kernelPdt 0 = identityEntry
  kernelSlot : machine.mem layout.kernelPdt kernelPtPdtIdx =
    pdtEntry (fourKb * layout.kernelPt) 0 1 0
  others : ∀ index, index ≠ 0 → index ≠ kernelPtPdtIdx →
    machine.mem layout.kernelPdt index = Entry.empty
  table : ∀ index, machine.mem layout.kernelPt index = Entry.empty ∨
    machine.mem layout.kernelPt index = ptEntry (fourKb * index) 1 0

theorem bootMachine_boot {layout : Layout}
    (distinct : layout.kernelPdt ≠ layout.kernelPt) (pages : Nat) :
    Boot layout (bootMachine layout pages) := by
  refine ⟨by simp [bootMachine], by simp [bootMachine], ?_, ?_⟩
  · intro index notIdentity notKernel
    simp [bootMachine, notIdentity, notKernel]
  · intro index
    have different := Ne.symm distinct
    by_cases mapped : index < pages
    · simp [bootMachine, different, mapped]
    · simp [bootMachine, different, mapped]

theorem Boot.kernelSlot_present {layout : Layout} {machine : Machine}
    (boot : Boot layout machine) :
    (machine.mem layout.kernelPdt kernelPtPdtIdx).isPresent = true := by
  rw [boot.kernelSlot]
  exact (pdtEntry_flags ..).1

theorem Boot.kernelSlot_frame {layout : Layout} {machine : Machine}
    (ok : layout.Ok) (boot : Boot layout machine) :
    (machine.mem layout.kernelPdt kernelPtPdtIdx).frame =
      layout.kernelPt := by
  have below := ok.kernelPtBelow
  rw [boot.kernelSlot, pdtEntry_frame]
  simp only [fourKb]
  omega

theorem twoFrameLayout_ok : twoFrameLayout.Ok where
  framesOk := twoFrameLayout_framesOk
  distinct := by decide
  kernelPdtBelow := by decide
  kernelPtBelow := by decide
  kernelPdtUnmanaged := by decide
  kernelPtUnmanaged := by decide

theorem twoFrameLayout_bootOk : twoFrameLayout.BootOk where
  toOk := twoFrameLayout_ok
  kernelPdtPos := by decide
  kernelPtPos := by decide

end Newbos
