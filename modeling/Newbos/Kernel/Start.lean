import Newbos.Paging.KernelTable
import Newbos.Kernel.FramesInit

/-!
# From the boot loader to `kernel_main`

The code under `_start` runs at physical addresses until it has enabled
paging.  It saves what the boot loader passes in registers, fills the kernel's
directory and page table, and calls `kernel_main` on a stack that is reached
through them.
-/

namespace Newbos

/-- `KERNEL_START_VADDR`. -/
abbrev kernelBase : BitVec 32 := 0xC0000000#32

/-- Where the linker puts what `boot.s` names. -/
structure BootImage where
  kernelVirtualStart : BitVec 32
  kernelVirtualEnd : BitVec 32
  kernelPt : BitVec 32
  stackTop : BitVec 32

namespace BootImage

variable (image : BootImage)

def kernelPhysicalStart : BitVec 32 := image.kernelVirtualStart - kernelBase

def kernelPhysicalEnd : BitVec 32 := image.kernelVirtualEnd - kernelBase

/-- In `.data`, the directory follows the page table. -/
def kernelPdt : BitVec 32 := image.kernelPt + 0x1000#32

def multibootInfo : BitVec 32 := image.kernelPt + 0x2000#32

def grubMagicNumber : BitVec 32 := image.kernelPt + 0x2004#32

end BootImage

/-- The registers that `_start` uses, and physical memory. -/
structure BootCpu where
  eax : BitVec 32
  ebx : BitVec 32
  ecx : BitVec 32
  edx : BitVec 32
  esp : BitVec 32
  cr0 : BitVec 32
  cr3 : BitVec 32
  cr4 : BitVec 32
  mem : ByteMemory

namespace BootCpu

/-- Memory as the paging code sees it.  While `page_frames.start` is 0, the
bitmap is what lies at address 0. -/
def machine (cpu : BootCpu) : Machine where
  mem := fun frame index =>
    if index < numEntries then
      Entry.ofWord (readWord cpu.mem
        (BitVec.ofNat 32 (fourKb * frame + 4 * index)))
    else Entry.empty
  bits := fun word => readWord cpu.mem (BitVec.ofNat 32 (4 * word))
  active := cpu.cr3.toNat / fourKb
  faulted := false

/-- The physical address of a virtual one, when it has one. -/
def physical (cpu : BootCpu) (vaddr : BitVec 32) : Option (BitVec 32) :=
  (cpu.machine.translate cpu.machine.active vaddr.toNat).map fun frame =>
    BitVec.ofNat 32 (fourKb * frame + vaddr.toNat % fourKb)

/-- A word at a virtual address that is divisible by 4. -/
def load (cpu : BootCpu) (vaddr : BitVec 32) : Option (BitVec 32) :=
  (cpu.physical vaddr).map (readWord cpu.mem)

def push (word : BitVec 32) (cpu : BootCpu) : Option BootCpu :=
  (cpu.physical (cpu.esp - 4#32)).map fun paddr =>
    { cpu with
      esp := cpu.esp - 4#32
      mem := writeWord cpu.mem paddr word }

end BootCpu

namespace BootImage

variable (image : BootImage)

/-- `_start`, up to `setup_kernel_pdt`. -/
def saveGrub (cpu : BootCpu) : BootCpu :=
  let cpu := { cpu with esp := image.stackTop }
  let cpu :=
    { cpu with
      ecx := image.grubMagicNumber - kernelBase
      mem := writeWord cpu.mem (image.grubMagicNumber - kernelBase) cpu.eax }
  { cpu with
    ecx := image.multibootInfo - kernelBase
    mem := writeWord cpu.mem (image.multibootInfo - kernelBase) cpu.ebx }

/-- `setup_kernel_pdt`. -/
def setupKernelPdt (cpu : BootCpu) : BootCpu :=
  let slot := image.kernelPdt - kernelBase + 0xC00#32
  let entry := (image.kernelPt - kernelBase) ||| 0x0000000B#32
  { cpu with
    ecx := slot
    edx := entry
    mem := writeWord cpu.mem slot entry }

/-- `setup_kernel_pt` and `loop`. -/
def fillKernelPt (rounds : Nat) (cpu : BootCpu) : Option BootCpu :=
  (loop image.kernelPhysicalEnd rounds
    (setupKernelPt (image.kernelPt - kernelBase) cpu.mem)).map fun state =>
      { cpu with
        eax := state.eax
        ecx := state.ecx
        mem := state.mem }

/-- `enable_paging`, without the jump at its end. -/
def enablePaging (cpu : BootCpu) : BootCpu :=
  { cpu with
    cr3 := (image.kernelPdt - kernelBase) &&& 0xFFFFF000#32 ||| 0x08#32
    cr4 := cpu.cr4 ||| 0x00000010#32
    cr0 := cpu.cr0 ||| 0x80000000#32 }

/-- `higher_half`, to the first instruction of `kernel_main`. -/
def higherHalf (returnAddress : BitVec 32) (cpu : BootCpu) :
    Option BootCpu := do
  let magicNumber ← cpu.load (image.grubMagicNumber - kernelBase)
  let cpu ← cpu.push magicNumber
  let minfo ← cpu.load (image.multibootInfo - kernelBase)
  let cpu ← cpu.push minfo
  [image.kernelPt, image.kernelPdt, image.kernelVirtualEnd,
    image.kernelVirtualStart, image.kernelPhysicalEnd,
    image.kernelPhysicalStart, returnAddress].foldlM
      (fun cpu word => BootCpu.push word cpu) cpu

/-- `_start`; `none` when the loop does not end within the rounds, or when
the stack is not mapped. -/
def start (returnAddress : BitVec 32) (rounds : Nat) (cpu : BootCpu) :
    Option BootCpu := do
  let cpu ← image.fillKernelPt rounds (image.setupKernelPdt
    (image.saveGrub cpu))
  image.higherHalf returnAddress (image.enablePaging cpu)

/-- What `linker.ld` makes of the image: code, then data, then the stack of
16 KiB, below 4 MiB.  Nothing in the script rounds the end; that the loop maps
the last page is a condition of its own. -/
structure Placed : Prop where
  lower : 0xC0100000 ≤ image.kernelVirtualStart.toNat
  dataInside : image.kernelVirtualStart.toNat ≤ image.kernelPt.toNat
  aligned : image.kernelPt.toNat % fourKb = 0
  stackBehind : image.kernelPt.toNat + 0x2008 + 16384 ≤ image.stackTop.toNat
  stackAligned : image.stackTop.toNat % 16 = 0
  stackInside : image.stackTop.toNat ≤ image.kernelVirtualEnd.toNat
  upper : image.kernelVirtualEnd.toNat ≤ 0xC0400000
  lastPage : image.kernelVirtualEnd.toNat % fourKb = 0 ∨
    0x0B ≤ image.kernelVirtualEnd.toNat % fourKb

/-- The two tables in the image that the boot loader loads. -/
structure Loaded (mem : ByteMemory) : Prop where
  kernelPt : ZeroFilled (image.kernelPt - kernelBase) mem
  identity : readWord mem (image.kernelPdt - kernelBase) = 0x0000008B#32
  kernelPdt : ∀ index, 0 < index → index < numEntries →
    readWord mem (image.kernelPdt - kernelBase +
      BitVec.ofNat 32 (4 * index)) = 0#32

end BootImage

/-! ## The two tables -/

/-- `VIRTUAL_TO_PHYSICAL(kernel_pt)`, from which the places in `.data` are
counted. -/
def BootImage.ptPaddr (image : BootImage) : BitVec 32 :=
  image.kernelPt - kernelBase

/-- The directory and the page table once they are filled. -/
structure BootImage.Tables (image : BootImage) (mem : ByteMemory) :
    Prop where
  identity : readWord mem (image.ptPaddr + BitVec.ofNat 32 4096) =
    0x0000008B#32
  kernelSlot : readWord mem (image.ptPaddr +
    BitVec.ofNat 32 (4096 + 4 * kernelPtPdtIdx)) =
      image.ptPaddr ||| 0x0000000B#32
  others : ∀ index, index < numEntries → index ≠ 0 →
    index ≠ kernelPtPdtIdx →
    readWord mem (image.ptPaddr + BitVec.ofNat 32 (4096 + 4 * index)) = 0#32
  table : ∀ index, index < numEntries →
    readWord mem (image.ptPaddr + BitVec.ofNat 32 (4 * index)) =
      if index < entriesWritten image.kernelPhysicalEnd then
        BitVec.ofNat 32 (4096 * index + 0x0B)
      else 0#32

section Image

variable {image : BootImage} {mem other : ByteMemory} {cpu : BootCpu}

theorem add_sub_kernelBase (paddr offset : BitVec 32) :
    paddr + offset - kernelBase = paddr - kernelBase + offset := by
  bv_omega

theorem BootImage.kernelPdt_paddr :
    image.kernelPdt - kernelBase = image.ptPaddr + BitVec.ofNat 32 4096 :=
  add_sub_kernelBase _ _

theorem BootImage.multibootInfo_paddr :
    image.multibootInfo - kernelBase =
      image.ptPaddr + BitVec.ofNat 32 0x2000 :=
  add_sub_kernelBase _ _

theorem BootImage.grubMagicNumber_paddr :
    image.grubMagicNumber - kernelBase =
      image.ptPaddr + BitVec.ofNat 32 0x2004 :=
  add_sub_kernelBase _ _

namespace BootImage.Placed

variable (placed : image.Placed)
include placed

theorem ptPaddr_toNat :
    image.ptPaddr.toNat + 0xC0000000 = image.kernelPt.toNat := by
  have lower := placed.lower
  have dataInside := placed.dataInside
  unfold BootImage.ptPaddr
  bv_omega

theorem ptPaddr_aligned : image.ptPaddr.toNat % 4096 = 0 := by
  have place := placed.ptPaddr_toNat
  have aligned := placed.aligned
  simp only [fourKb] at aligned
  omega

theorem kernelPhysicalEnd_toNat :
    image.kernelPhysicalEnd.toNat + 0xC0000000 =
      image.kernelVirtualEnd.toNat := by
  have lower := placed.lower
  have dataInside := placed.dataInside
  have stackBehind := placed.stackBehind
  have stackInside := placed.stackInside
  unfold BootImage.kernelPhysicalEnd
  bv_omega

theorem ptPaddr_below :
    image.ptPaddr.toNat + 0x2008 + 16384 ≤
      image.kernelPhysicalEnd.toNat := by
  have place := placed.ptPaddr_toNat
  have finish := placed.kernelPhysicalEnd_toNat
  have stackBehind := placed.stackBehind
  have stackInside := placed.stackInside
  omega

theorem kernelPhysicalEnd_le :
    image.kernelPhysicalEnd.toNat ≤ 4194304 := by
  have finish := placed.kernelPhysicalEnd_toNat
  have upper := placed.upper
  omega

/-- The loop maps the pages of the image and no others. -/
theorem page_lt_iff {page : Nat} :
    page < entriesWritten image.kernelPhysicalEnd ↔
      4096 * page < image.kernelPhysicalEnd.toNat := by
  have finish := placed.kernelPhysicalEnd_toNat
  have below := placed.ptPaddr_below
  have lastPage := placed.lastPage
  simp only [fourKb] at lastPage
  unfold entriesWritten
  omega

end BootImage.Placed

theorem BootImage.Tables.congr (tables : image.Tables mem)
    (same : ∀ offset : BitVec 32, offset.toNat < 8192 →
      other (image.ptPaddr + offset) = mem (image.ptPaddr + offset)) :
    image.Tables other := by
  have word : ∀ place, place + 4 ≤ 8192 →
      readWord other (image.ptPaddr + BitVec.ofNat 32 place) =
        readWord mem (image.ptPaddr + BitVec.ofNat 32 place) := by
    intro place inside
    apply readWord_congr
    intro offset inWord
    rw [BitVec.add_assoc]
    apply same
    rw [BitVec.toNat_add, BitVec.toNat_ofNat]
    omega
  refine ⟨?_, ?_, ?_, ?_⟩
  · rw [word 4096 (by decide)]
    exact tables.identity
  · rw [word _ (by decide)]
    exact tables.kernelSlot
  · intro index inTable notFirst notKernel
    rw [word _ (by simp only [numEntries] at inTable; omega)]
    exact tables.others index inTable notFirst notKernel
  · intro index inTable
    rw [word _ (by simp only [numEntries] at inTable; omega)]
    exact tables.table index inTable

theorem BootImage.setupKernelPdt_mem :
    (image.setupKernelPdt (image.saveGrub cpu)).mem =
      writeWord (writeWord (writeWord cpu.mem
        (image.ptPaddr + BitVec.ofNat 32 0x2004) cpu.eax)
        (image.ptPaddr + BitVec.ofNat 32 0x2000) cpu.ebx)
        (image.ptPaddr + BitVec.ofNat 32 (4096 + 4 * kernelPtPdtIdx))
        (image.ptPaddr ||| 0x0000000B#32) := by
  have slot : image.kernelPdt - kernelBase + 0xC00#32 =
      image.ptPaddr + BitVec.ofNat 32 (4096 + 4 * kernelPtPdtIdx) := by
    rw [BootImage.kernelPdt_paddr, BitVec.add_assoc]
    rfl
  simp only [BootImage.setupKernelPdt, BootImage.saveGrub, slot,
    BootImage.grubMagicNumber_paddr, BootImage.multibootInfo_paddr]
  rfl

theorem BootImage.setupKernelPdt_word {place : Nat} (small : place ≤ 4294963200)
    (notSlot : place + 4 ≤ 4096 + 4 * kernelPtPdtIdx ∨
      4096 + 4 * kernelPtPdtIdx + 4 ≤ place)
    (below : place + 4 ≤ 0x2000) :
    readWord (image.setupKernelPdt (image.saveGrub cpu)).mem
        (image.ptPaddr + BitVec.ofNat 32 place) =
      readWord cpu.mem (image.ptPaddr + BitVec.ofNat 32 place) := by
  rw [BootImage.setupKernelPdt_mem,
    readWord_writeWord_apart (by decide) (by omega) notSlot.symm,
    readWord_writeWord_apart (by decide) (by omega) (Or.inr below),
    readWord_writeWord_apart (by decide) (by omega) (Or.inr (by omega))]

theorem BootImage.Loaded.zeroFilled (loaded : image.Loaded cpu.mem) :
    ZeroFilled image.ptPaddr
      (image.setupKernelPdt (image.saveGrub cpu)).mem := by
  intro offset inTable
  have beside : ∀ place, 4096 ≤ place → place ≤ 0x2004 →
      4 ≤ (image.ptPaddr + offset -
        (image.ptPaddr + BitVec.ofNat 32 place)).toNat := by
    intro place lower upper
    have distance : image.ptPaddr + offset -
        (image.ptPaddr + BitVec.ofNat 32 place) =
          offset - BitVec.ofNat 32 place := by bv_omega
    rw [distance, BitVec.toNat_sub, BitVec.toNat_ofNat]
    omega
  rw [BootImage.setupKernelPdt_mem,
    writeWord_outside (beside _ (by decide) (by decide)),
    writeWord_outside (beside _ (by decide) (by decide)),
    writeWord_outside (beside _ (by decide) (by decide))]
  exact loaded.kernelPt offset inTable

/-- The state in which paging is enabled. -/
structure BootImage.Filled (image : BootImage) (cpu filled : BootCpu) :
    Prop where
  tables : image.Tables filled.mem
  minfo : readWord filled.mem
    (image.ptPaddr + BitVec.ofNat 32 0x2000) = cpu.ebx
  magicNumber : readWord filled.mem
    (image.ptPaddr + BitVec.ofNat 32 0x2004) = cpu.eax
  esp : filled.esp = image.stackTop

theorem BootImage.Loaded.fill (loaded : image.Loaded cpu.mem)
    (placed : image.Placed) {rounds : Nat}
    (enough : entriesWritten image.kernelPhysicalEnd ≤ rounds) :
    ∃ filled, image.fillKernelPt rounds
        (image.setupKernelPdt (image.saveGrub cpu)) = some filled ∧
      image.Filled cpu filled := by
  have bounded := placed.kernelPhysicalEnd_le
  have most := entriesWritten_le bounded
  have ended := @loop_eq image.ptPaddr _
    (image.setupKernelPdt (image.saveGrub cpu)).mem _ bounded enough
  have entries : EntriesFilled image.ptPaddr
      (image.setupKernelPdt (image.saveGrub cpu)).mem _ _ :=
    entriesFilled_iterate most
  have zeroFilled := loaded.zeroFilled
  generalize loopBody^[entriesWritten image.kernelPhysicalEnd]
    (setupKernelPt image.ptPaddr
      (image.setupKernelPdt (image.saveGrub cpu)).mem) = final at *
  -- The loop writes the page table only.
  have behind : ∀ place, 4096 ≤ place → place ≤ 0x2004 →
      readWord final.mem (image.ptPaddr + BitVec.ofNat 32 place) =
        readWord (image.setupKernelPdt (image.saveGrub cpu)).mem
          (image.ptPaddr + BitVec.ofNat 32 place) := by
    intro place lower upper
    apply readWord_congr
    intro offset inWord
    rw [BitVec.add_assoc]
    apply entries.outside
    rw [BitVec.toNat_add, BitVec.toNat_ofNat]
    omega
  refine ⟨_, congrArg _ ended, ⟨⟨?_, ?_, ?_, ?_⟩, ?_, ?_, rfl⟩⟩
  · rw [behind 4096 (by decide) (by decide),
      BootImage.setupKernelPdt_word (by decide) (by decide) (by decide),
      ← BootImage.kernelPdt_paddr]
    exact loaded.identity
  · rw [behind _ (by decide) (by decide), BootImage.setupKernelPdt_mem,
      readWord_writeWord]
  · intro index inTable notFirst notKernel
    simp only [numEntries, kernelPtPdtIdx] at inTable notKernel
    rw [behind _ (by omega) (by omega),
      BootImage.setupKernelPdt_word (by omega)
        (by simp only [kernelPtPdtIdx]; omega) (by omega)]
    have zero := loaded.kernelPdt index (by omega)
      (by simp only [numEntries]; omega)
    rw [BootImage.kernelPdt_paddr, BitVec.add_assoc, ← BitVec.ofNat_add]
      at zero
    exact zero
  · intro index inTable
    split_ifs with written
    · exact entries.words index written
    · exact entries.word_zero zeroFilled (Nat.le_of_not_lt written) inTable
  · rw [behind _ (by decide) (by decide), BootImage.setupKernelPdt_mem,
      readWord_writeWord_apart (by decide) (by decide) (by decide),
      readWord_writeWord]
  · rw [behind _ (by decide) (by decide), BootImage.setupKernelPdt_mem,
      readWord_writeWord_apart (by decide) (by decide) (by decide),
      readWord_writeWord_apart (by decide) (by decide) (by decide),
      readWord_writeWord]

/-! ## The boot directory -/

theorem BootCpu.machine_entry {frame index place : Nat}
    (frameEq : fourKb * frame = image.ptPaddr.toNat + place)
    (inTable : index < numEntries) :
    cpu.machine.mem frame index =
      Entry.ofWord (readWord cpu.mem
        (image.ptPaddr + BitVec.ofNat 32 (place + 4 * index))) := by
  have address : BitVec.ofNat 32 (fourKb * frame + 4 * index) =
      image.ptPaddr + BitVec.ofNat 32 (place + 4 * index) := by
    rw [frameEq, Nat.add_assoc, BitVec.ofNat_add, BitVec.ofNat_toNat,
      BitVec.setWidth_eq]
  simp only [BootCpu.machine, if_pos inTable, address]

theorem ofWord_kernelSlot {frame : Nat} (small : frame < 1024) :
    Entry.ofWord (BitVec.ofNat 32 (4096 * frame) ||| 0x0000000B#32) =
      pdtEntry (fourKb * frame) 0 1 0 := by
  have every : ∀ frame < 1024,
      Entry.ofWord (BitVec.ofNat 32 (4096 * frame) ||| 0x0000000B#32) =
        pdtEntry (fourKb * frame) 0 1 0 := by decide +kernel
  exact every frame small

theorem ofWord_tableEntry {index : Nat} (small : index < 1024) :
    Entry.ofWord (BitVec.ofNat 32 (4096 * index + 0x0B)) =
      ptEntry (fourKb * index) 1 0 := by
  have every : ∀ index < 1024,
      Entry.ofWord (BitVec.ofNat 32 (4096 * index + 0x0B)) =
        ptEntry (fourKb * index) 1 0 := by decide +kernel
  exact every index small

/-- The frames of the two tables. -/
structure BootImage.TableFrames (image : BootImage) (layout : Layout) :
    Prop where
  kernelPt : fourKb * layout.kernelPt = image.ptPaddr.toNat
  kernelPdt : fourKb * layout.kernelPdt = image.ptPaddr.toNat + 4096

theorem BootImage.Tables.boot (tables : image.Tables cpu.mem)
    (placed : image.Placed) {layout : Layout}
    (frames : image.TableFrames layout) : Boot layout cpu.machine := by
  obtain ⟨ptFrame, pdtFrame⟩ := frames
  have below := placed.ptPaddr_below
  have bounded := placed.kernelPhysicalEnd_le
  have outside : ∀ frame index, ¬index < numEntries →
      cpu.machine.mem frame index = Entry.empty :=
    fun frame index large => if_neg large
  refine ⟨?_, ?_, ?_, ?_⟩
  · rw [BootCpu.machine_entry pdtFrame (by decide), tables.identity]
    decide
  · have value : image.ptPaddr =
        BitVec.ofNat 32 (4096 * layout.kernelPt) := by
      rw [ptFrame, BitVec.ofNat_toNat, BitVec.setWidth_eq]
    rw [BootCpu.machine_entry pdtFrame (by decide), tables.kernelSlot]
    nth_rewrite 1 [value]
    apply ofWord_kernelSlot
    simp only [fourKb] at ptFrame
    omega
  · intro index notFirst notKernel
    by_cases inTable : index < numEntries
    · rw [BootCpu.machine_entry pdtFrame inTable,
        tables.others index inTable notFirst notKernel]
      decide
    · exact outside _ index inTable
  · intro index
    by_cases inTable : index < numEntries
    · have found := @BootCpu.machine_entry image cpu _ index 0 ptFrame
        inTable
      rw [Nat.zero_add, tables.table index inTable] at found
      rw [found]
      split_ifs
      · exact Or.inr (ofWord_tableEntry inTable)
      · exact Or.inl (by decide)
    · exact Or.inl (outside _ index inTable)

theorem BootImage.Tables.page (tables : image.Tables cpu.mem)
    {layout : Layout} (frames : image.TableFrames layout) {index : Nat}
    (inTable : index < numEntries) :
    cpu.machine.mem layout.kernelPt index =
      if index < entriesWritten image.kernelPhysicalEnd then
        ptEntry (fourKb * index) 1 0
      else Entry.empty := by
  have found := @BootCpu.machine_entry image cpu _ index 0 frames.kernelPt
    inTable
  rw [Nat.zero_add, tables.table index inTable] at found
  rw [found]
  split_ifs
  · exact ofWord_tableEntry inTable
  · decide

theorem Boot.identity_translate {layout : Layout} {machine : Machine}
    (boot : Boot layout machine) {vaddr : Nat} (low : vaddr < 4194304) :
    machine.translate layout.kernelPdt vaddr = some (vaddr / fourKb) := by
  have slot : virtualToPdtIdx vaddr = 0 := by
    rw [virtualToPdtIdx_eq]
    omega
  have index : virtualToPtIdx vaddr = vaddr / 4096 := by
    rw [virtualToPtIdx_eq]
    omega
  have valid : identityEntry.bitP = true := by decide
  have large : identityEntry.bitPS = true := by decide
  have first : identityEntry.paddr = 0 := by decide
  simp only [Machine.translate, slot, index, boot.identity, valid, large,
    first, if_true]
  simp

theorem Boot.kernel_translate {layout : Layout} {machine : Machine}
    (boot : Boot layout machine) (below : layout.kernelPt < 1048576)
    {page offset : Nat} (inTable : page < 1024) (inPage : offset < 4096)
    (mapped : machine.mem layout.kernelPt page =
      ptEntry (fourKb * page) 1 0) :
    machine.translate layout.kernelPdt
      (0xC0000000 + 4096 * page + offset) = some page := by
  have slot : virtualToPdtIdx (0xC0000000 + 4096 * page + offset) =
      kernelPtPdtIdx := by
    rw [virtualToPdtIdx_eq]
    simp only [kernelPtPdtIdx]
    omega
  have index : virtualToPtIdx (0xC0000000 + 4096 * page + offset) =
      page := by
    rw [virtualToPtIdx_eq]
    omega
  obtain ⟨_, valid, small, _⟩ :=
    pdtEntry_flags (fourKb * layout.kernelPt) 1 0
  obtain ⟨_, present, _⟩ := ptEntry_flags (fourKb * page) 1 0
  have table : (pdtEntry (fourKb * layout.kernelPt) 0 1 0).frame =
      layout.kernelPt := by
    rw [pdtEntry_frame]
    simp only [fourKb]
    omega
  simp only [Machine.translate, slot, index, boot.kernelSlot, valid, small,
    table, mapped, present, if_true, Bool.false_eq_true, if_false]
  rw [ptEntry_frame]
  simp only [fourKb, Option.some.injEq]
  omega

/-! ## Through paging -/

/-- `cr3` points to the directory. -/
def BootImage.Active (image : BootImage) (cpu : BootCpu) : Prop :=
  fourKb * cpu.machine.active = image.ptPaddr.toNat + 4096

theorem BootImage.Placed.tableFrames (placed : image.Placed)
    (active : image.Active cpu) :
    image.TableFrames
      { kernelPdt := cpu.machine.active
        kernelPt := image.ptPaddr.toNat / fourKb
        mmap := []
        start := 0
        len := 0 } where
  kernelPt := by
    have aligned := placed.ptPaddr_aligned
    simp only [fourKb]
    omega
  kernelPdt := active

theorem BootImage.Tables.physical_low (tables : image.Tables cpu.mem)
    (placed : image.Placed) (active : image.Active cpu) {paddr : BitVec 32}
    (low : paddr.toNat < 4194304) : cpu.physical paddr = some paddr := by
  have boot := tables.boot placed (placed.tableFrames active)
  rw [BootCpu.physical, boot.identity_translate low]
  simp only [Option.map_some, Option.some.injEq, Nat.div_add_mod]
  rw [BitVec.ofNat_toNat, BitVec.setWidth_eq]

theorem BootImage.Tables.physical_kernel (tables : image.Tables cpu.mem)
    (placed : image.Placed) (active : image.Active cpu) {vaddr : BitVec 32}
    (lower : 0xC0000000 ≤ vaddr.toNat)
    (upper : vaddr.toNat < image.kernelVirtualEnd.toNat) :
    cpu.physical vaddr = some (vaddr - kernelBase) := by
  have frames := placed.tableFrames active
  have boot := tables.boot placed frames
  have finish := placed.kernelPhysicalEnd_toNat
  have bounded := placed.kernelPhysicalEnd_le
  have below := placed.ptPaddr_below
  have place : (vaddr - kernelBase).toNat + 0xC0000000 = vaddr.toNat := by
    bv_omega
  have inTable : (vaddr - kernelBase).toNat / 4096 < 1024 := by omega
  have written : (vaddr - kernelBase).toNat / 4096 <
      entriesWritten image.kernelPhysicalEnd := by
    rw [placed.page_lt_iff]
    omega
  have mapped := tables.page frames inTable
  rw [if_pos written] at mapped
  have translated := @Boot.kernel_translate _ _ boot
    (by simp only [fourKb]; omega) _ ((vaddr - kernelBase).toNat % 4096)
    inTable (Nat.mod_lt _ (by decide)) mapped
  have split : 0xC0000000 + 4096 * ((vaddr - kernelBase).toNat / 4096) +
      (vaddr - kernelBase).toNat % 4096 = vaddr.toNat := by omega
  have offset : vaddr.toNat % 4096 = (vaddr - kernelBase).toNat % 4096 := by
    omega
  rw [split] at translated
  rw [BootCpu.physical, translated]
  simp only [Option.map_some, Option.some.injEq, fourKb, offset,
    Nat.div_add_mod]
  rw [BitVec.ofNat_toNat, BitVec.setWidth_eq]

/-- A state under `higher_half`: some words are on the stack. -/
structure BootImage.Entered (image : BootImage) (from_ cpu : BootCpu)
    (words : List (BitVec 32)) : Prop where
  holds : HoldsWords cpu.mem (cpu.esp - kernelBase) words
  esp : cpu.esp + BitVec.ofNat 32 (4 * words.length) = image.stackTop
  tables : image.Tables cpu.mem
  minfo : readWord cpu.mem
    (image.ptPaddr + BitVec.ofNat 32 0x2000) = from_.ebx
  magicNumber : readWord cpu.mem
    (image.ptPaddr + BitVec.ofNat 32 0x2004) = from_.eax
  active : image.Active cpu
  paging : cpu.cr0.getLsbD 31 = true
  largePages : cpu.cr4.getLsbD 4 = true

theorem BootImage.Entered.esp_bounds {from_ : BootCpu}
    {words : List (BitVec 32)} (entered : image.Entered from_ cpu words)
    (placed : image.Placed) (few : words.length ≤ 16) :
    image.kernelPt.toNat + 0x2008 + 16320 ≤ cpu.esp.toNat ∧
      cpu.esp.toNat + 4 * words.length = image.stackTop.toNat := by
  have esp := entered.esp
  have stackBehind := placed.stackBehind
  have stackInside := placed.stackInside
  have upper := placed.upper
  have top := congrArg BitVec.toNat esp
  rw [BitVec.toNat_add, BitVec.toNat_ofNat] at top
  have range := cpu.esp.isLt
  omega

theorem BootImage.Entered.push {from_ : BootCpu} {words : List (BitVec 32)}
    (entered : image.Entered from_ cpu words) (placed : image.Placed)
    (few : words.length < 16) (word : BitVec 32) :
    ∃ next, cpu.push word = some next ∧
      image.Entered from_ next (word :: words) := by
  obtain ⟨espLower, espTop⟩ := entered.esp_bounds placed (Nat.le_of_lt few)
  have place := placed.ptPaddr_toNat
  have lower := placed.lower
  have dataInside := placed.dataInside
  have stackInside := placed.stackInside
  have pushed : (cpu.esp - 4#32).toNat = cpu.esp.toNat - 4 := by bv_omega
  have paddr := entered.tables.physical_kernel placed entered.active
    (show 0xC0000000 ≤ (cpu.esp - 4#32).toNat by omega) (by omega)
  have swapped : cpu.esp - 4#32 - kernelBase =
      cpu.esp - kernelBase - 4#32 := by bv_omega
  rw [swapped] at paddr
  -- The written word is behind the tables and the two variables.
  have behind : (cpu.esp - kernelBase - 4#32 - image.ptPaddr).toNat ≥
      0x2008 := by
    have distance : (cpu.esp - kernelBase - 4#32).toNat =
        cpu.esp.toNat - 4 - 0xC0000000 := by bv_omega
    rw [BitVec.toNat_sub, distance]
    omega
  have kept : ∀ offset : BitVec 32, offset.toNat < 0x2008 →
      writeWord cpu.mem (cpu.esp - kernelBase - 4#32) word
          (image.ptPaddr + offset) = cpu.mem (image.ptPaddr + offset) := by
    intro offset inside
    apply writeWord_outside
    have below := placed.ptPaddr_below
    have bounded := placed.kernelPhysicalEnd_le
    have distance : (cpu.esp - kernelBase - 4#32).toNat =
        cpu.esp.toNat - 4 - 0xC0000000 := by bv_omega
    rw [BitVec.toNat_sub, BitVec.toNat_add, distance]
    omega
  have keptWord : ∀ start, start + 4 ≤ 0x2008 →
      readWord (writeWord cpu.mem (cpu.esp - kernelBase - 4#32) word)
          (image.ptPaddr + BitVec.ofNat 32 start) =
        readWord cpu.mem (image.ptPaddr + BitVec.ofNat 32 start) := by
    intro start inside
    apply readWord_congr
    intro offset inWord
    rw [BitVec.add_assoc]
    apply kept
    rw [BitVec.toNat_add, BitVec.toNat_ofNat]
    omega
  have pushedEq : cpu.push word = some
      { cpu with
        esp := cpu.esp - 4#32
        mem := writeWord cpu.mem (cpu.esp - kernelBase - 4#32) word } := by
    rw [BootCpu.push, paddr, Option.map_some]
  refine ⟨_, pushedEq, ⟨?_, ?_, ?_, ?_, ?_, entered.active, entered.paging,
    entered.largePages⟩⟩
  · have holds := entered.holds.push word (by omega)
    rw [← swapped] at holds
    simp only [← swapped]
    exact holds
  · rw [← entered.esp, List.length_cons, Nat.mul_succ, BitVec.ofNat_add]
    bv_omega
  · exact entered.tables.congr fun offset inside => kept offset (by omega)
  · exact (keptWord _ (by decide)).trans entered.minfo
  · exact (keptWord _ (by decide)).trans entered.magicNumber

theorem BootImage.Entered.pushAll {from_ : BootCpu}
    {words pushed : List (BitVec 32)}
    (entered : image.Entered from_ cpu words) (placed : image.Placed)
    (few : words.length + pushed.length ≤ 16) :
    ∃ next, pushed.foldlM (fun cpu word => BootCpu.push word cpu) cpu =
        some next ∧
      image.Entered from_ next (pushed.reverse ++ words) := by
  induction pushed generalizing cpu words with
  | nil => exact ⟨cpu, rfl, entered⟩
  | cons word rest induction =>
      rw [List.length_cons] at few
      obtain ⟨next, pushedEq, nextEntered⟩ :=
        entered.push placed (by omega) word
      obtain ⟨last, restEq, lastEntered⟩ := induction nextEntered
        (by rw [List.length_cons]; omega)
      refine ⟨last, ?_, ?_⟩
      · rw [List.foldlM_cons, pushedEq]
        exact restEq
      · rw [List.reverse_cons, List.append_assoc]
        exact lastEntered

theorem cr3_frame (paddr : BitVec 32) :
    ((paddr &&& 0xFFFFF000#32) ||| 0x08#32).toNat / 4096 =
      paddr.toNat / 4096 := by
  have small := paddr.isLt
  have masked := Nat.and_two_pow_sub_one_eq_mod (paddr.toNat >>> 12) 20
  rw [BitVec.toNat_or, BitVec.toNat_and,
    ← Nat.shiftRight_eq_div_pow _ 12, ← Nat.shiftRight_eq_div_pow _ 12,
    Nat.shiftRight_or_distrib, Nat.shiftRight_and_distrib]
  simp only [BitVec.reduceToNat, Nat.reduceShiftRight, Nat.or_zero]
  simp only [Nat.reducePow, Nat.reduceSub] at masked
  rw [masked, Nat.shiftRight_eq_div_pow]
  omega

theorem BootImage.Filled.entered {filled : BootCpu}
    (state : image.Filled cpu filled) (placed : image.Placed) :
    image.Entered cpu (image.enablePaging filled) [] where
  holds := trivial
  esp := by
    simp only [BootImage.enablePaging, state.esp, List.length_nil]
    exact BitVec.add_zero _
  tables := state.tables
  minfo := state.minfo
  magicNumber := state.magicNumber
  active := by
    have aligned := placed.ptPaddr_aligned
    have below := placed.ptPaddr_below
    have bounded := placed.kernelPhysicalEnd_le
    have directory : (image.ptPaddr + BitVec.ofNat 32 4096).toNat =
        image.ptPaddr.toNat + 4096 := by
      rw [BitVec.toNat_add, BitVec.toNat_ofNat]
      omega
    simp only [BootImage.Active, BootCpu.machine, BootImage.enablePaging,
      BootImage.kernelPdt_paddr, fourKb, cr3_frame, directory]
    omega
  paging := by simp [BootImage.enablePaging]
  largePages := by simp [BootImage.enablePaging]

theorem BootImage.Entered.load_low {from_ : BootCpu}
    {words : List (BitVec 32)} (entered : image.Entered from_ cpu words)
    (placed : image.Placed) {place : Nat} (inData : place ≤ 0x2004) :
    cpu.load (image.ptPaddr + BitVec.ofNat 32 place) =
      some (readWord cpu.mem (image.ptPaddr + BitVec.ofNat 32 place)) := by
  have below := placed.ptPaddr_below
  have bounded := placed.kernelPhysicalEnd_le
  have low : (image.ptPaddr + BitVec.ofNat 32 place).toNat < 4194304 := by
    rw [BitVec.toNat_add, BitVec.toNat_ofNat]
    omega
  rw [BootCpu.load, entered.tables.physical_low placed entered.active low,
    Option.map_some]

theorem BootImage.Entered.load_stack {from_ : BootCpu}
    {words : List (BitVec 32)} (entered : image.Entered from_ cpu words)
    (placed : image.Placed) (few : words.length ≤ 16) {index : Nat}
    {word : BitVec 32} (found : words[index]? = some word) :
    cpu.load (cpu.esp + BitVec.ofNat 32 (4 * index)) = some word := by
  obtain ⟨espLower, espTop⟩ := entered.esp_bounds placed few
  obtain ⟨inside, _⟩ := List.getElem?_eq_some_iff.mp found
  have lower := placed.lower
  have dataInside := placed.dataInside
  have stackInside := placed.stackInside
  have range := image.stackTop.isLt
  have address : (cpu.esp + BitVec.ofNat 32 (4 * index)).toNat =
      cpu.esp.toNat + 4 * index := by
    rw [BitVec.toNat_add, BitVec.toNat_ofNat]
    omega
  rw [BootCpu.load, entered.tables.physical_kernel placed entered.active
    (by omega) (by omega), Option.map_some, add_sub_kernelBase,
    entered.holds.get found]

/-- The words on the stack at the first instruction of `kernel_main`. -/
def BootImage.arguments (image : BootImage) (returnAddress : BitVec 32)
    (cpu : BootCpu) : List (BitVec 32) :=
  [returnAddress, image.kernelPhysicalStart, image.kernelPhysicalEnd,
    image.kernelVirtualStart, image.kernelVirtualEnd, image.kernelPdt,
    image.kernelPt, cpu.ebx, cpu.eax]

theorem BootImage.Loaded.enters (loaded : image.Loaded cpu.mem)
    (placed : image.Placed) (returnAddress : BitVec 32) {rounds : Nat}
    (enough : entriesWritten image.kernelPhysicalEnd ≤ rounds) :
    ∃ entered, image.start returnAddress rounds cpu = some entered ∧
      image.Entered cpu entered (image.arguments returnAddress cpu) := by
  obtain ⟨filled, filledEq, state⟩ := loaded.fill placed enough
  have empty := state.entered placed
  have magicNumber := empty.load_low placed (Nat.le_refl 0x2004)
  rw [empty.magicNumber, ← BootImage.grubMagicNumber_paddr] at magicNumber
  obtain ⟨withMagic, pushMagic, entersMagic⟩ :=
    empty.push placed (Nat.zero_lt_succ _) cpu.eax
  have minfo := entersMagic.load_low placed (show 0x2000 ≤ 0x2004 by decide)
  rw [entersMagic.minfo, ← BootImage.multibootInfo_paddr] at minfo
  obtain ⟨withInfo, pushInfo, entersInfo⟩ :=
    entersMagic.push placed (Nat.lt_of_le_of_lt (Nat.le_refl 1) (by decide))
      cpu.ebx
  obtain ⟨entered, pushRest, enters⟩ := @BootImage.Entered.pushAll image
    withInfo cpu _ [image.kernelPt, image.kernelPdt, image.kernelVirtualEnd,
      image.kernelVirtualStart, image.kernelPhysicalEnd,
      image.kernelPhysicalStart, returnAddress] entersInfo placed
      (Nat.le_add_left 9 7)
  refine ⟨entered, ?_, enters⟩
  simp only [BootImage.start, filledEq, BootImage.higherHalf, magicNumber,
    pushMagic, minfo, pushInfo, Option.bind_eq_bind, Option.bind_some]
  exact pushRest

/-- What `kernel_main` finds: paging with the boot directory, the first 4 MiB
and the image mapped, and its arguments on the stack. -/
structure BootImage.HandsOver (image : BootImage) (returnAddress : BitVec 32)
    (from_ entered : BootCpu) : Prop where
  paging : entered.cr0.getLsbD 31 = true
  largePages : entered.cr4.getLsbD 4 = true
  boot : ∀ layout, image.TableFrames layout →
    Boot layout entered.machine ∧ entered.machine.active = layout.kernelPdt
  low : ∀ paddr : BitVec 32, paddr.toNat < fourMb →
    entered.physical paddr = some paddr
  high : ∀ vaddr : BitVec 32, kernelBase.toNat ≤ vaddr.toNat →
    vaddr.toNat < image.kernelVirtualEnd.toNat →
    entered.physical vaddr = some (vaddr - kernelBase)
  stack : ∀ index word,
    (image.arguments returnAddress from_)[index]? = some word →
    entered.load (entered.esp + BitVec.ofNat 32 (4 * index)) = some word

/-- `_start` calls `kernel_main` with paging enabled, on the boot directory
that the paging code starts from. -/
theorem start_enters_kernel_main (placed : image.Placed)
    (loaded : image.Loaded cpu.mem) (returnAddress : BitVec 32)
    {rounds : Nat}
    (enough : entriesWritten image.kernelPhysicalEnd ≤ rounds) :
    ∃ entered, image.start returnAddress rounds cpu = some entered ∧
      image.HandsOver returnAddress cpu entered := by
  obtain ⟨entered, started, enters⟩ :=
    loaded.enters placed returnAddress enough
  refine ⟨entered, started, enters.paging, enters.largePages, ?_, ?_, ?_, ?_⟩
  · intro layout frames
    refine ⟨enters.tables.boot placed frames, ?_⟩
    have active := enters.active
    have directory := frames.kernelPdt
    unfold BootImage.Active at active
    simp only [fourKb] at *
    omega
  · intro paddr low
    exact enters.tables.physical_low placed enters.active low
  · intro vaddr lower upper
    exact enters.tables.physical_kernel placed enters.active lower upper
  · intro index word found
    exact enters.load_stack placed (Nat.le_add_left 9 7) found

/-- An image of 64 KiB. -/
abbrev sampleImage : BootImage :=
  { kernelVirtualStart := 0xC0100000#32
    kernelVirtualEnd := 0xC0110000#32
    kernelPt := 0xC0105000#32
    stackTop := 0xC010C000#32 }

theorem sampleImage_placed : sampleImage.Placed where
  lower := by decide
  dataInside := by decide
  aligned := by decide
  stackBehind := by decide
  stackAligned := by decide
  stackInside := by decide
  upper := by decide
  lastPage := by decide

/-- A processor with the image in memory, as the boot loader leaves it. -/
abbrev sampleBootCpu : BootCpu :=
  { eax := 0x2BADB002#32
    ebx := 0x9000#32
    ecx := 0#32
    edx := 0#32
    esp := 0#32
    cr0 := 0x11#32
    cr3 := 0#32
    cr4 := 0#32
    mem := writeWord (fun _ => 0#8) 0x106000#32 0x8B#32 }

theorem sampleImage_loaded : sampleImage.Loaded sampleBootCpu.mem where
  kernelPt := by
    intro offset inTable
    apply @writeWord_outside (fun _ => 0#8) 0x106000#32 0x8B#32
    have distance : sampleImage.kernelPt - kernelBase + offset -
        0x106000#32 = offset - 0x1000#32 := by
      simp only [kernelBase]
      bv_omega
    rw [distance, BitVec.toNat_sub]
    simp only [BitVec.reduceToNat]
    omega
  identity := readWord_writeWord
  kernelPdt := by
    intro index positive inTable
    have slot : sampleImage.kernelPdt - kernelBase = 0x106000#32 := by decide
    have apart := @readWord_writeWord_apart (fun _ => 0#8) 0x8B#32
      0x106000#32 0 (4 * index) (by decide)
      (by simp only [numEntries] at inTable; omega) (Or.inl (by omega))
    have zero : readWord (fun _ => 0#8)
        (0x106000#32 + BitVec.ofNat 32 (4 * index)) = 0#32 := by
      simp [readWord]
    rw [BitVec.add_zero] at apart
    rw [slot]
    exact apart.trans zero

theorem start_enters_kernel_main_sample :
    ∃ entered, sampleImage.start 0xC0100100#32 272 sampleBootCpu =
        some entered ∧
      sampleImage.HandsOver 0xC0100100#32 sampleBootCpu entered :=
  start_enters_kernel_main sampleImage_placed sampleImage_loaded
    0xC0100100#32 (by decide)

/-! ## `frames_init` -/

theorem BootImage.Placed.kernelTables (placed : image.Placed) :
    KernelTables image.kernelPhysicalStart.toNat
      image.kernelPhysicalEnd.toNat (image.kernelPdt - kernelBase).toNat
      (image.kernelPt - kernelBase).toNat := by
  have place := placed.ptPaddr_toNat
  have aligned := placed.ptPaddr_aligned
  have below := placed.ptPaddr_below
  have bounded := placed.kernelPhysicalEnd_le
  have lower := placed.lower
  have dataInside := placed.dataInside
  have first : image.kernelPhysicalStart.toNat + 0xC0000000 =
      image.kernelVirtualStart.toNat := by
    unfold BootImage.kernelPhysicalStart
    bv_omega
  have directory : (image.kernelPdt - kernelBase).toNat =
      image.ptPaddr.toNat + 4096 := by
    rw [BootImage.kernelPdt_paddr, BitVec.toNat_add, BitVec.toNat_ofNat]
    omega
  have table : (image.kernelPt - kernelBase).toNat =
      image.ptPaddr.toNat := rfl
  rw [directory, table]
  refine ⟨?_, ?_, ?_, ?_, ?_⟩
  · simp only [fourKb]
    omega
  · exact aligned
  · omega
  · omega
  · omega

/-- The layout of `frames_init` names the frames of the two tables. -/
theorem BootImage.Placed.bootLayout_frames (placed : image.Placed)
    (entries : List MultibootMmapEntry) :
    image.TableFrames (bootLayout image.kernelPhysicalStart.toNat
      image.kernelPhysicalEnd.toNat (image.kernelPdt - kernelBase).toNat
      (image.kernelPt - kernelBase).toNat entries) := by
  have tables := placed.kernelTables
  have below := placed.ptPaddr_below
  have bounded := placed.kernelPhysicalEnd_le
  refine ⟨?_, ?_⟩
  · exact Nat.mul_div_cancel' (Nat.dvd_of_mod_eq_zero tables.ptAligned)
  · refine (Nat.mul_div_cancel'
      (Nat.dvd_of_mod_eq_zero tables.pdtAligned)).trans ?_
    rw [BootImage.kernelPdt_paddr, BitVec.toNat_add, BitVec.toNat_ofNat]
    omega

/-- The two tables of a machine are as at the start of `kernel_main`. -/
def BootImage.KeepsTables (image : BootImage) (entered : BootCpu)
    (machine : Machine) : Prop :=
  ∀ layout, image.TableFrames layout → ∀ index,
    machine.mem layout.kernelPdt index =
        entered.machine.mem layout.kernelPdt index ∧
      machine.mem layout.kernelPt index =
        entered.machine.mem layout.kernelPt index

theorem BootImage.Entered.boot_keeps {from_ entered : BootCpu}
    {words : List (BitVec 32)} {machine : Machine}
    (enters : image.Entered from_ entered words) (placed : image.Placed)
    (keeps : image.KeepsTables entered machine) {layout : Layout}
    (frames : image.TableFrames layout) : Boot layout machine := by
  have boot := enters.tables.boot placed frames
  have same := keeps layout frames
  refine ⟨?_, ?_, ?_, ?_⟩
  · rw [(same 0).1]
    exact boot.identity
  · rw [(same _).1]
    exact boot.kernelSlot
  · intro index notFirst notKernel
    rw [(same index).1]
    exact boot.others index notFirst notKernel
  · intro index
    rw [(same index).2]
    exact boot.table index

theorem BootImage.Entered.bitmapRoom {from_ entered : BootCpu}
    {words : List (BitVec 32)} {machine : Machine}
    (enters : image.Entered from_ entered words) (placed : image.Placed)
    (keeps : image.KeepsTables entered machine)
    (short : image.kernelPhysicalEnd.toNat ≤ 991 * fourKb)
    {layout : Layout} (frames : image.TableFrames layout) :
    BitmapRoom layout machine 991 where
  behind := by
    intro index lower inTable
    have unused : ¬index < entriesWritten image.kernelPhysicalEnd := by
      rw [placed.page_lt_iff]
      simp only [fourKb] at short
      omega
    rw [(keeps layout frames index).2, enters.tables.page frames inTable,
      if_neg unused]
    rfl
  room := by decide

/-- From `_start` to the allocator: on a memory map that `frames_init` treats
well, with two frames and a region for the bitmap, the kernel comes to hand
out free frames only, each to one owner at a time. -/
theorem kernel_hands_out_free_frames (placed : image.Placed)
    (loaded : image.Loaded cpu.mem) (returnAddress : BitVec 32)
    {rounds : Nat}
    (enough : entriesWritten image.kernelPhysicalEnd ≤ rounds)
    (short : image.kernelPhysicalEnd.toNat ≤ 991 * fourKb)
    {memory : Nat → UInt8} {minfo : MultibootInfo}
    {entries : List MultibootMmapEntry} {holder : MultibootMmapEntry}
    (hasMmap : minfo.HasMmap)
    (walk : MmapEntries memory minfo.mmapEnd minfo.mmapAddr entries)
    (map : BootMap image.kernelPhysicalStart.toNat
      image.kernelPhysicalEnd.toNat entries holder)
    (few : (entries.filterMap (recordedRegion
      image.kernelPhysicalStart.toNat
      image.kernelPhysicalEnd.toNat)).length ≤ maxNumMemoryMap)
    (twoFrames : 2 ≤ (mmapFrames (bootRegions
      image.kernelPhysicalStart.toNat image.kernelPhysicalEnd.toNat
      entries)).length)
    (fits : ∃ region ∈ bootRegions image.kernelPhysicalStart.toNat
      image.kernelPhysicalEnd.toNat entries,
        fourKb * bitmapPfs (bootRegions image.kernelPhysicalStart.toNat
          image.kernelPhysicalEnd.toNat entries) ≤ region.len)
    {fuel : Nat} (steps : entries.length < fuel) (held : Nat → UInt8) :
    ∃ entered, image.start returnAddress rounds cpu = some entered ∧
      ∀ machine, image.KeepsTables entered machine →
        ∃ after afterMachine,
          framesInit memory image.kernelPhysicalStart.toNat
              image.kernelPhysicalEnd.toNat
              (image.kernelPdt - kernelBase).toNat
              (image.kernelPt - kernelBase).toNat minfo fuel held machine =
            some (0, after, afterMachine) ∧
          after.BootOk ∧
          ∀ state live, AllocatorRun after afterMachine state live →
            live.Nodup ∧ ∀ frame ∈ live,
              (∀ offset < fourKb, 0x100000 < fourKb * frame + offset ∧
                FreeByte image.kernelPhysicalStart.toNat
                  image.kernelPhysicalEnd.toNat entries
                  (fourKb * frame + offset)) ∧
              ¬BitmapFrame after state frame := by
  obtain ⟨entered, started, enters⟩ :=
    loaded.enters placed returnAddress enough
  refine ⟨entered, started, fun machine keeps => ?_⟩
  have tables := placed.kernelTables
  have frames := placed.bootLayout_frames entries
  have boot := enters.boot_keeps placed keeps frames
  have room := enters.bitmapRoom placed keeps short frames
  obtain ⟨after, afterMachine, built⟩ := (@constructBitmap_returns_iff _ _
    held _ (map.framesInitOk tables) boot room).mpr ⟨twoFrames, fits⟩
  have success := (@framesInit_eq _ _ _ _ _ _ _ held machine _ hasMmap walk
    steps few).trans built
  refine ⟨after, afterMachine, success, map.bootOk tables twoFrames built,
    ?_⟩
  intro state live run
  exact allocated_frames_are_free hasMmap walk map tables boot room success
    run

/-- The image in the memory of an emulator. -/
theorem kernel_hands_out_free_frames_emulator :
    ∃ entered, sampleImage.start 0xC0100100#32 272 sampleBootCpu =
        some entered ∧
      ∀ machine, sampleImage.KeepsTables entered machine →
        ∃ after afterMachine,
          framesInit (bufferAt 0x9000
              ([ramEntry].flatMap MultibootMmapEntry.bytes)) 0x100000
              0x110000 0x106000 0x105000
              (MultibootInfo.ofEntries 0x9000 [ramEntry]) 2 (fun _ => 0)
              machine = some (0, after, afterMachine) ∧
          after.BootOk ∧
          ∀ state live, AllocatorRun after afterMachine state live →
            live.Nodup ∧ ∀ frame ∈ live,
              (∀ offset < fourKb, 0x100000 < fourKb * frame + offset ∧
                FreeByte 0x100000 0x110000 [ramEntry]
                  (fourKb * frame + offset)) ∧
              ¬BitmapFrame after state frame :=
  kernel_hands_out_free_frames sampleImage_placed sampleImage_loaded
    0xC0100100#32 (by decide) (by decide) (by decide) ramEntry_walk
    ramEntry_bootMap (by decide) ramEntry_twoFrames
    ⟨⟨0x110000, 0x7DD0000⟩, by decide, by decide⟩ (by decide) (fun _ => 0)

end Image

end Newbos
