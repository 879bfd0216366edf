import Newbos.Library.Loop
import Newbos.Library.Stack
import Newbos.Paging.Boot

/-!
# Filling the kernel's page table

The loop of `boot.s` that fills `kernel_pt` before paging is enabled.  It
counts in the entry that it writes next, flags included, and compares that
entry with the end of the kernel image.
-/

namespace Newbos

/-- The registers that the loop uses, and physical memory. -/
structure BootState where
  eax : BitVec 32
  ecx : BitVec 32
  mem : ByteMemory

/-- `setup_kernel_pt`. -/
def setupKernelPt (kernelPt : BitVec 32) (mem : ByteMemory) : BootState :=
  { eax := kernelPt
    ecx := 0x0000000B#32
    mem := mem }

/-- The three instructions under `loop:` that come before the comparison. -/
def loopBody (state : BootState) : BootState :=
  { eax := state.eax + 4#32
    ecx := state.ecx + 0x1000#32
    mem := writeWord state.mem state.eax state.ecx }

/-- `cmp $kernel_physical_end, %ecx; jle loop`, a signed comparison. -/
def loopAgain (kernelPhysicalEnd : BitVec 32) (state : BootState) : Bool :=
  state.ecx.sle kernelPhysicalEnd

/-- The loop, cut off after so many rounds. -/
def loop (kernelPhysicalEnd : BitVec 32) : Nat → BootState →
    Option BootState :=
  doWhile (loopAgain kernelPhysicalEnd) loopBody

/-- Address of an entry of `kernel_pt`. -/
def kernelPtEntry (kernelPt : BitVec 32) (index : Nat) : BitVec 32 :=
  kernelPt + BitVec.ofNat 32 (4 * index)

/-- The loop ends, writes inside of `kernel_pt` only, and maps every page that
the kernel image reaches into. -/
def MapsImage (kernelPt kernelPhysicalEnd : BitVec 32) (mem : ByteMemory) :
    Prop :=
  ∃ rounds final,
    loop kernelPhysicalEnd rounds (setupKernelPt kernelPt mem) =
      some final ∧
    (∀ offset : BitVec 32, 4096 ≤ offset.toNat →
      final.mem (kernelPt + offset) = mem (kernelPt + offset)) ∧
    ∀ index, 4096 * index < kernelPhysicalEnd.toNat →
      readWord final.mem (kernelPtEntry kernelPt index) =
        BitVec.ofNat 32 (4096 * index + 0x0B)

/-- `kernel_pt` in the image that the boot loader loads: `.fill 1024, 4, 0`. -/
def ZeroFilled (kernelPt : BitVec 32) (mem : ByteMemory) : Prop :=
  ∀ offset : BitVec 32, offset.toNat < 4096 → mem (kernelPt + offset) = 0#8

/-- How many entries the loop writes. -/
def entriesWritten (kernelPhysicalEnd : BitVec 32) : Nat :=
  (kernelPhysicalEnd.toNat - 0x0B) / 4096 + 1

/-- The state after a number of rounds. -/
structure EntriesFilled (kernelPt : BitVec 32) (mem : ByteMemory)
    (count : Nat) (state : BootState) : Prop where
  eax : state.eax = kernelPtEntry kernelPt count
  ecx : state.ecx = BitVec.ofNat 32 (4096 * count + 0x0B)
  words : ∀ index < count,
    readWord state.mem (kernelPtEntry kernelPt index) =
      BitVec.ofNat 32 (4096 * index + 0x0B)
  outside : ∀ offset : BitVec 32, 4 * count ≤ offset.toNat →
    state.mem (kernelPt + offset) = mem (kernelPt + offset)

section Rounds

variable {kernelPt : BitVec 32} {mem : ByteMemory} {count : Nat}
  {state : BootState}

theorem EntriesFilled.start :
    EntriesFilled kernelPt mem 0 (setupKernelPt kernelPt mem) where
  eax := by simp [setupKernelPt, kernelPtEntry]
  ecx := rfl
  words := by
    intro index before
    exact absurd before (Nat.not_lt_zero index)
  outside := fun _ _ => rfl

theorem writeEntry_outside (word : BitVec 32) {offset : BitVec 32}
    (small : count < 1024)
    (outside : offset.toNat < 4 * count ∨ 4 * count + 4 ≤ offset.toNat) :
    writeWord state.mem (kernelPtEntry kernelPt count) word
      (kernelPt + offset) = state.mem (kernelPt + offset) := by
  apply writeWord_outside
  have distance : kernelPt + offset - kernelPtEntry kernelPt count =
      offset - BitVec.ofNat 32 (4 * count) := by
    rw [kernelPtEntry]
    bv_omega
  rw [distance, BitVec.toNat_sub, BitVec.toNat_ofNat]
  have below := offset.isLt
  omega

theorem EntriesFilled.next (filled : EntriesFilled kernelPt mem count state)
    (small : count < 1024) :
    EntriesFilled kernelPt mem (count + 1) (loopBody state) where
  eax := by
    change state.eax + 4#32 = _
    rw [filled.eax, kernelPtEntry, kernelPtEntry, BitVec.add_assoc,
      ← BitVec.ofNat_add, Nat.mul_succ]
  ecx := by
    have sum : 4096 * (count + 1) + 0x0B = 4096 * count + 0x0B + 0x1000 := by
      omega
    change state.ecx + 0x1000#32 = _
    rw [filled.ecx, sum, BitVec.ofNat_add (4096 * count + 0x0B)]
  words := by
    intro index before
    change readWord (writeWord state.mem state.eax state.ecx) _ = _
    rw [filled.eax]
    by_cases last : index = count
    · rw [last, readWord_writeWord, filled.ecx]
    · rw [← filled.words index (by omega)]
      apply readWord_congr
      intro offset inside
      have address : kernelPtEntry kernelPt index + offset =
          kernelPt + (BitVec.ofNat 32 (4 * index) + offset) := by
        rw [kernelPtEntry, BitVec.add_assoc]
      rw [address]
      apply writeEntry_outside _ small
      left
      rw [BitVec.toNat_add, BitVec.toNat_ofNat]
      omega
  outside := by
    intro offset after
    change writeWord state.mem state.eax state.ecx _ = _
    rw [filled.eax, writeEntry_outside _ small (Or.inr (by omega))]
    exact filled.outside offset (by omega)

theorem entriesFilled_iterate (small : count ≤ 1024) :
    EntriesFilled kernelPt mem count
      (loopBody^[count] (setupKernelPt kernelPt mem)) := by
  induction count with
  | zero => exact EntriesFilled.start
  | succ count induction =>
      rw [Function.iterate_succ_apply']
      exact (induction (by omega)).next (by omega)

theorem EntriesFilled.word_zero {index : Nat}
    (filled : EntriesFilled kernelPt mem count state)
    (zeroFilled : ZeroFilled kernelPt mem) (after : count ≤ index)
    (small : index < 1024) :
    readWord state.mem (kernelPtEntry kernelPt index) = 0#32 := by
  have zero : ∀ offset : BitVec 32, offset.toNat < 4 →
      state.mem (kernelPtEntry kernelPt index + offset) = 0#8 := by
    intro offset inside
    have position : (BitVec.ofNat 32 (4 * index) + offset).toNat =
        4 * index + offset.toNat := by
      rw [BitVec.toNat_add, BitVec.toNat_ofNat]
      omega
    rw [kernelPtEntry, BitVec.add_assoc, filled.outside _ (by omega)]
    exact zeroFilled _ (by omega)
  have first := zero 0#32 (by decide)
  rw [BitVec.add_zero] at first
  rw [readWord, zero 3#32 (by decide), zero 2#32 (by decide),
    zero 1#32 (by decide), first]
  rfl

/-- The test, for an end in the first four megabytes. -/
theorem EntriesFilled.again_iff {kernelPhysicalEnd : BitVec 32}
    (filled : EntriesFilled kernelPt mem count state) (small : count ≤ 1024)
    (bounded : kernelPhysicalEnd.toNat ≤ 4194304) :
    loopAgain kernelPhysicalEnd state = true ↔
      4096 * count + 0x0B ≤ kernelPhysicalEnd.toNat := by
  have value : (BitVec.ofNat 32 (4096 * count + 0x0B)).toNat =
      4096 * count + 0x0B := by
    rw [BitVec.toNat_ofNat]
    omega
  rw [loopAgain, filled.ecx, BitVec.sle, decide_eq_true_iff,
    BitVec.toInt_eq_toNat_of_lt (by omega),
    BitVec.toInt_eq_toNat_of_lt (by omega), value]
  omega

end Rounds

section Image

variable {kernelPt kernelPhysicalEnd : BitVec 32} {mem : ByteMemory}

theorem entriesWritten_le (bounded : kernelPhysicalEnd.toNat ≤ 4194304) :
    entriesWritten kernelPhysicalEnd ≤ 1024 := by
  rw [entriesWritten]
  omega

/-- The loop ends after `entriesWritten` rounds. -/
theorem loop_eq {rounds : Nat}
    (bounded : kernelPhysicalEnd.toNat ≤ 4194304)
    (enough : entriesWritten kernelPhysicalEnd ≤ rounds) :
    loop kernelPhysicalEnd rounds (setupKernelPt kernelPt mem) =
      some (loopBody^[entriesWritten kernelPhysicalEnd]
        (setupKernelPt kernelPt mem)) := by
  have most := entriesWritten_le bounded
  apply doWhile_eq_iterate _ _ enough
  · intro round early
    rw [(entriesFilled_iterate (by omega)).again_iff (by omega) bounded]
    omega
  · rw [Bool.eq_false_iff, Ne,
      (entriesFilled_iterate (by
        rw [entriesWritten] at most
        exact most)).again_iff (by
          rw [entriesWritten] at most
          exact most) bounded]
    omega

theorem loop_filled {rounds : Nat} {final : BootState}
    (bounded : kernelPhysicalEnd.toNat ≤ 4194304)
    (ended : loop kernelPhysicalEnd rounds (setupKernelPt kernelPt mem) =
      some final) :
    EntriesFilled kernelPt mem (entriesWritten kernelPhysicalEnd) final := by
  have most := entriesWritten_le bounded
  have later := doWhile_mono ended (Nat.le_max_left rounds 1024)
  rw [← loop, loop_eq bounded (Nat.le_trans most (Nat.le_max_right _ _))]
    at later
  cases later
  exact entriesFilled_iterate most

/-- An image whose last page holds fewer bytes than the flags count loses
that page. -/
theorem not_mapsImage (zeroFilled : ZeroFilled kernelPt mem)
    (bounded : kernelPhysicalEnd.toNat ≤ 4194304)
    (long : 4096 < kernelPhysicalEnd.toNat)
    (used : kernelPhysicalEnd.toNat % 4096 ≠ 0)
    (few : kernelPhysicalEnd.toNat % 4096 < 0x0B) :
    ¬MapsImage kernelPt kernelPhysicalEnd mem := by
  rintro ⟨rounds, final, ended, -, mapped⟩
  have filled := loop_filled bounded ended
  have missed : entriesWritten kernelPhysicalEnd =
      kernelPhysicalEnd.toNat / 4096 := by
    rw [entriesWritten]
    omega
  have zero := filled.word_zero zeroFilled (Nat.le_of_eq missed) (by omega)
  rw [mapped (kernelPhysicalEnd.toNat / 4096) (by omega)] at zero
  have value := congrArg BitVec.toNat zero
  rw [BitVec.toNat_ofNat, BitVec.toNat_ofNat] at value
  omega

/-- The kernel image is mapped exactly when its last page holds no byte at
all, at least as many as the flags count, or is the first one. -/
theorem kernel_pt_maps_image_iff (zeroFilled : ZeroFilled kernelPt mem)
    (positive : 0 < kernelPhysicalEnd.toNat)
    (bounded : kernelPhysicalEnd.toNat ≤ 4194304) :
    MapsImage kernelPt kernelPhysicalEnd mem ↔
      kernelPhysicalEnd.toNat ≤ 4096 ∨ kernelPhysicalEnd.toNat % 4096 = 0 ∨
        0x0B ≤ kernelPhysicalEnd.toNat % 4096 := by
  constructor
  · intro mapsImage
    by_contra failing
    push Not at failing
    obtain ⟨long, used, few⟩ := failing
    exact not_mapsImage zeroFilled bounded long used few mapsImage
  · intro fits
    have most := entriesWritten_le bounded
    have filled : EntriesFilled kernelPt mem _ _ := entriesFilled_iterate most
    refine ⟨_, _, loop_eq bounded (Nat.le_refl _), ?_, ?_⟩
    · intro offset after
      exact filled.outside offset (by omega)
    · intro index reached
      apply filled.words
      rw [entriesWritten]
      omega

theorem kernel_pt_maps_image_iff_two_pages :
    MapsImage 0x104000#32 0x102000#32 (fun _ => 0#8) ↔
      (0x102000#32 : BitVec 32).toNat ≤ 4096 ∨
        (0x102000#32 : BitVec 32).toNat % 4096 = 0 ∨
        0x0B ≤ (0x102000#32 : BitVec 32).toNat % 4096 :=
  kernel_pt_maps_image_iff (fun _ _ => rfl) (by decide) (by decide)

/-- An image that ends five bytes into a page. -/
theorem kernel_pt_misses_last_page :
    ¬MapsImage 0x104000#32 0x107005#32 (fun _ => 0#8) :=
  not_mapsImage (fun _ _ => rfl) (by decide) (by decide) (by decide)
    (by decide)

end Image

theorem ptEntry_toWord {index : Nat} (small : index < 1024) :
    (ptEntry (fourKb * index) 1 0).toWord =
      BitVec.ofNat 32 (4096 * index + 0x0B) := by
  have every : ∀ index < 1024, (ptEntry (fourKb * index) 1 0).toWord =
      BitVec.ofNat 32 (4096 * index + 0x0B) := by decide +kernel
  exact every index small

theorem EntriesFilled.bootMachine {kernelPt : BitVec 32} {mem : ByteMemory}
    {count index : Nat} {state : BootState} {layout : Layout}
    (filled : EntriesFilled kernelPt mem count state)
    (zeroFilled : ZeroFilled kernelPt mem)
    (distinct : layout.kernelPdt ≠ layout.kernelPt) (small : index < 1024) :
    readWord state.mem (kernelPtEntry kernelPt index) =
      ((bootMachine layout count).mem layout.kernelPt index).toWord := by
  by_cases mapped : index < count
  · simp only [Newbos.bootMachine, Ne.symm distinct, if_false, mapped,
      and_self, if_true]
    rw [filled.words index mapped, ptEntry_toWord small]
  · simp only [Newbos.bootMachine, Ne.symm distinct, if_false, mapped,
      and_false]
    rw [filled.word_zero zeroFilled (Nat.le_of_not_lt mapped) small]
    rfl

end Newbos
