import Newbos.Frames.Map

/-!
# Paging structures and machine state

Directory entries and page-table entries have the same four-byte layout, so
one type serves for both.  Physical memory is a store of such entries indexed
by frame number and position inside the frame; the bitmap of the page-frame
allocator is a store of its own, addressed from `page_frames.start`.
-/

namespace Newbos

/-- `struct pde` and `struct pte`.  The second byte is called `low_addr` in a
directory entry and `middle` in a page-table entry. -/
structure Entry where
  config : UInt8
  lowAddr : UInt8
  highAddr : UInt16
  deriving DecidableEq, Repr

namespace Entry

/-- Four zero bytes, as written by `memset`. -/
def empty : Entry :=
  { config := 0
    lowAddr := 0
    highAddr := 0 }

/-- `IS_ENTRY_PRESENT`, whose `&&` only tests that `config` is not zero. -/
def isPresent (entry : Entry) : Bool :=
  entry.config != 0

/-- The address part of an entry, as `get_pt_paddr` computes it. -/
def paddr (entry : Entry) : Nat :=
  (entry.highAddr.toNat <<< 16) |||
    ((entry.lowAddr &&& 0xF0).toNat <<< 8)

/-- Number of the frame an entry names. -/
def frame (entry : Entry) : Nat :=
  entry.paddr / fourKb

/-- The hardware's P bit. -/
def bitP (entry : Entry) : Bool :=
  entry.config &&& 0x01 != 0

/-- The hardware's R/W bit. -/
def bitRW (entry : Entry) : Bool :=
  entry.config &&& 0x02 != 0

/-- The hardware's U/S bit. -/
def bitUS (entry : Entry) : Bool :=
  entry.config &&& 0x04 != 0

/-- The hardware's page-size bit of a directory entry. -/
def bitPS (entry : Entry) : Bool :=
  entry.config &&& 0x80 != 0

/-- The entry's four bytes as one little-endian word. -/
def toWord (entry : Entry) : BitVec 32 :=
  entry.highAddr.toBitVec ++ entry.lowAddr.toBitVec ++ entry.config.toBitVec

def ofWord (word : BitVec 32) : Entry :=
  { config := ⟨word.extractLsb' 0 8⟩
    lowAddr := ⟨word.extractLsb' 8 8⟩
    highAddr := ⟨word.extractLsb' 16 16⟩ }

end Entry

/-- The value stored by `create_pt_entry`. -/
def ptEntry (addr : Nat) (rw pl : UInt8) : Entry :=
  { config := ((0x01 : UInt8) <<< 3) ||| ((0x01 &&& pl) <<< 2) |||
      ((0x01 &&& rw) <<< 1) ||| 0x01
    lowAddr := UInt8.ofNat (((addr >>> 12) &&& 0xF) <<< 4)
    highAddr := UInt16.ofNat ((addr >>> 16) &&& 0xFFFF) }

/-- The value stored by `create_pdt_entry`. -/
def pdtEntry (addr : Nat) (ps rw pl : UInt8) : Entry :=
  { config := ((ps &&& 0x01) <<< 7) ||| ((0x01 : UInt8) <<< 3) |||
      ((pl &&& 0x01) <<< 2) ||| ((rw &&& 0x01) <<< 1) ||| 0x01
    lowAddr := UInt8.ofNat (((addr >>> 12) &&& 0xF) <<< 4)
    highAddr := UInt16.ofNat ((addr >>> 16) &&& 0xFFFF) }

/-- `VIRTUAL_TO_PDT_IDX`. -/
def virtualToPdtIdx (vaddr : Nat) : Nat :=
  (vaddr >>> 22) &&& 0x3FF

/-- `VIRTUAL_TO_PT_IDX`. -/
def virtualToPtIdx (vaddr : Nat) : Nat :=
  (vaddr >>> 12) &&& 0x3FF

theorem virtualToPdtIdx_eq (vaddr : Nat) :
    virtualToPdtIdx vaddr = vaddr / 4194304 % 1024 := by
  have masked := Nat.and_two_pow_sub_one_eq_mod (vaddr >>> 22) 10
  simpa [virtualToPdtIdx, Nat.shiftRight_eq_div_pow] using masked

theorem virtualToPtIdx_eq (vaddr : Nat) :
    virtualToPtIdx vaddr = vaddr / 4096 % 1024 := by
  have masked := Nat.and_two_pow_sub_one_eq_mod (vaddr >>> 12) 10
  simpa [virtualToPtIdx, Nat.shiftRight_eq_div_pow] using masked

/-- What `frames_init` fixes for the rest of a run: the frames of the kernel's
own directory and page table, the usable regions, and `page_frames`. -/
structure Layout where
  kernelPdt : Nat
  kernelPt : Nat
  mmap : List MemoryMap
  start : Nat
  len : Nat
  deriving Repr

/-- Number of 32-bit words in the pages mapped for the bitmap. -/
def Layout.bitmapWords (layout : Layout) : Nat :=
  1024 * divCeil (divCeil layout.len 8) fourKb

/-- The state the paging code works on.  `active` is the directory frame most
recently loaded into `cr3`, and `faulted` records a page fault, from which the
kernel does not return. -/
structure Machine where
  mem : Nat → Nat → Entry
  bits : Nat → BitVec 32
  active : Nat
  faulted : Bool

namespace Machine

def setEntry (machine : Machine) (frame index : Nat) (entry : Entry) :
    Machine :=
  { machine with
    mem := Store.set machine.mem frame
      (Store.set (machine.mem frame) index entry) }

/-- `memset` of a whole frame to zero. -/
def zeroFrame (machine : Machine) (frame : Nat) : Machine :=
  { machine with mem := Store.set machine.mem frame fun _ => Entry.empty }

/-- The processor's walk from a directory: the frame that backs an address, or
nothing when an entry on the way is not present. -/
def translate (machine : Machine) (directory vaddr : Nat) : Option Nat :=
  let pde := machine.mem directory (virtualToPdtIdx vaddr)
  if pde.bitP then
    if pde.bitPS then
      some (pde.paddr / 4194304 * 1024 + virtualToPtIdx vaddr)
    else
      let pte := machine.mem pde.frame (virtualToPtIdx vaddr)
      if pte.bitP then some pte.frame else none
  else none

/-- Flip bits of the word at a kernel virtual address. -/
def xorWord (machine : Machine) (layout : Layout) (vaddr : Nat)
    (mask : BitVec 32) : Machine :=
  match machine.translate layout.kernelPdt vaddr with
  | some frame =>
      let index := vaddr / 4 % 1024
      machine.setEntry frame index
        (Entry.ofWord ((machine.mem frame index).toWord ^^^ mask))
  | none => { machine with faulted := true }

@[simp] theorem setEntry_bits (machine : Machine) (frame index : Nat)
    (entry : Entry) : (machine.setEntry frame index entry).bits =
      machine.bits := rfl

@[simp] theorem setEntry_active (machine : Machine) (frame index : Nat)
    (entry : Entry) : (machine.setEntry frame index entry).active =
      machine.active := rfl

@[simp] theorem setEntry_faulted (machine : Machine) (frame index : Nat)
    (entry : Entry) : (machine.setEntry frame index entry).faulted =
      machine.faulted := rfl

theorem setEntry_mem (machine : Machine) (frame index : Nat) (entry : Entry)
    (other position : Nat) :
    (machine.setEntry frame index entry).mem other position =
      if other = frame ∧ position = index then entry
      else machine.mem other position := by
  by_cases sameFrame : other = frame
  · simp [setEntry, sameFrame, Store.set]
  · simp [setEntry, sameFrame, Store.set]

@[simp] theorem zeroFrame_bits (machine : Machine) (frame : Nat) :
    (machine.zeroFrame frame).bits = machine.bits := rfl

@[simp] theorem zeroFrame_active (machine : Machine) (frame : Nat) :
    (machine.zeroFrame frame).active = machine.active := rfl

@[simp] theorem zeroFrame_faulted (machine : Machine) (frame : Nat) :
    (machine.zeroFrame frame).faulted = machine.faulted := rfl

theorem zeroFrame_mem (machine : Machine) (frame other position : Nat) :
    (machine.zeroFrame frame).mem other position =
      if other = frame then Entry.empty else machine.mem other position := by
  by_cases sameFrame : other = frame
  · simp [zeroFrame, sameFrame]
  · simp [zeroFrame, Store.set_other, sameFrame]

end Machine

/-- Two machines differ in the first frame at most. -/
structure FirstFrameOnly (machine after : Machine) : Prop where
  elsewhere : ∀ frame, frame ≠ 0 → after.mem frame = machine.mem frame
  bits : after.bits = machine.bits
  active : after.active = machine.active
  faulted : after.faulted = machine.faulted

theorem FirstFrameOnly.refl (machine : Machine) :
    FirstFrameOnly machine machine :=
  ⟨fun _ _ => rfl, rfl, rfl, rfl⟩

theorem FirstFrameOnly.trans {machine middle after : Machine}
    (first : FirstFrameOnly machine middle)
    (second : FirstFrameOnly middle after) :
    FirstFrameOnly machine after :=
  ⟨fun frame notFirst => (second.elsewhere frame notFirst).trans
      (first.elsewhere frame notFirst),
    second.bits.trans first.bits, second.active.trans first.active,
    second.faulted.trans first.faulted⟩

theorem FirstFrameOnly.setEntry (machine : Machine) (index : Nat)
    (entry : Entry) :
    FirstFrameOnly machine (machine.setEntry 0 index entry) := by
  refine ⟨?_, rfl, rfl, rfl⟩
  intro frame notFirst
  exact Store.set_other _ _ notFirst

theorem FirstFrameOnly.zeroFrame (machine : Machine) :
    FirstFrameOnly machine (machine.zeroFrame 0) := by
  refine ⟨?_, rfl, rfl, rfl⟩
  intro frame notFirst
  exact Store.set_other _ _ notFirst

end Newbos
