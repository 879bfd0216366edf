import Newbos.Paging.Entry
import Newbos.Frames.Allocator

/-!
# Page tables and directories

The kernel reaches a page table through one temporary page: the last entry of
its own page table is pointed at the table, the table is read or written
through that window, and the entry is restored.  A directory is identified by
its frame.
-/

namespace Newbos

/-- `FOUR_MB` and `PDT_ENTRY_SIZE`. -/
abbrev fourMb : Nat := 0x400000

/-- `NUM_ENTRIES`. -/
abbrev numEntries : Nat := 1024

/-- `KERNEL_START_VADDR`. -/
abbrev kernelStartVaddr : Nat := 0xC0000000

/-- `KERNEL_TMP_PT_IDX`. -/
abbrev kernelTmpPtIdx : Nat := 1023

/-- `KERNEL_PT_PDT_IDX` and `KERNEL_PDT_IDX`. -/
abbrev kernelPtPdtIdx : Nat := 768

/-- `KERNEL_TMP_VADDR`. -/
abbrev kernelTmpVaddr : Nat := 0xC03FF000

/-- `PDT_SIZE`. -/
abbrev pdtSize : Nat := 4096

section Window

variable (layout : Layout)

def kernelMapTemporaryMemory (paddr : Nat) (machine : Machine) : Machine :=
  machine.setEntry layout.kernelPt kernelTmpPtIdx (ptEntry paddr 1 0)

def kernelSetTemporaryEntry (entry : Entry) (machine : Machine) : Machine :=
  machine.setEntry layout.kernelPt kernelTmpPtIdx entry

def kernelGetTemporaryEntry (machine : Machine) : Entry :=
  machine.mem layout.kernelPt kernelTmpPtIdx

/-- The frame that the temporary page shows. -/
def window (machine : Machine) : Nat :=
  (kernelGetTemporaryEntry layout machine).frame

end Window

/-- The loop of `pt_map_memory`; the first argument counts the entries from
`pt_idx` to the end of the table. -/
def ptMapLoop (layout : Layout) (pdtIdx size : Nat) (rw pl : UInt8) :
    Nat → Nat → Nat → Machine → Nat × Machine
  | 0, _, mappedSize, machine => (mappedSize, machine)
  | remaining + 1, paddr, mappedSize, machine =>
      let ptIdx := 1023 - remaining
      let pt := window layout machine
      if mappedSize < size then
        if (machine.mem pt ptIdx).isPresent then (mappedSize, machine)
        else if pdtIdx = kernelPtPdtIdx ∧ ptIdx = kernelTmpPtIdx then
          (mappedSize, machine)
        else
          ptMapLoop layout pdtIdx size rw pl remaining
            (w32 (paddr + fourKb)) (w32 (mappedSize + fourKb))
            (machine.setEntry pt ptIdx (ptEntry paddr rw pl))
      else (mappedSize, machine)

/-- `pt_map_memory` on the table in the window. -/
def ptMapMemory (layout : Layout) (pdtIdx paddr vaddr size : Nat)
    (rw pl : UInt8) (machine : Machine) : Nat × Machine :=
  ptMapLoop layout pdtIdx size rw pl (numEntries - virtualToPtIdx vaddr)
    paddr 0 machine

/-- The first half of an iteration of `pdt_map_memory`: put the page table of
a slot into the window, allocating it when the slot is empty.  The address is
0 when there is no frame for it. -/
def openTable (layout : Layout) (pdt pdtIdx : Nat) (machine : Machine) :
    Nat × Machine :=
  if (machine.mem pdt pdtIdx).isPresent then
    let ptPaddr := (machine.mem pdt pdtIdx).paddr
    (ptPaddr, kernelMapTemporaryMemory layout ptPaddr machine)
  else
    let (ptPaddr, machine) := pfaAllocate layout 1 machine
    if ptPaddr = 0 then (0, machine)
    else
      let machine := kernelMapTemporaryMemory layout ptPaddr machine
      (ptPaddr, machine.zeroFrame (window layout machine))

/-- The loop of `pdt_map_memory`; `none` when the fuel runs out. -/
def pdtMapLoop (layout : Layout) (pdt : Nat) (rw pl : UInt8) :
    Nat → Nat → Nat → Nat → Nat → Machine → Option (Nat × Machine)
  | 0, _, _, _, _, _ => none
  | fuel + 1, paddr, vaddr, size, totalMappedSize, machine =>
      if size = 0 then some (totalMappedSize, machine)
      else
        let pdtIdx := virtualToPdtIdx vaddr
        let tmpEntry := kernelGetTemporaryEntry layout machine
        let absent := !(machine.mem pdt pdtIdx).isPresent
        let (ptPaddr, machine) := openTable layout pdt pdtIdx machine
        if absent ∧ ptPaddr = 0 then some (0, machine)
        else
          let (mappedSize, machine) :=
            ptMapMemory layout pdtIdx paddr vaddr size rw pl machine
          if mappedSize = 0 then
            some (0, kernelSetTemporaryEntry layout tmpEntry machine)
          else
            let machine :=
              if (machine.mem pdt pdtIdx).isPresent then machine
              else machine.setEntry pdt pdtIdx (pdtEntry ptPaddr 0 rw pl)
            let machine := kernelSetTemporaryEntry layout tmpEntry machine
            pdtMapLoop layout pdt rw pl fuel (w32 (paddr + mappedSize))
              (w32 (vaddr + mappedSize)) (size - mappedSize)
              (w32 (totalMappedSize + mappedSize)) machine

/-- `pdt_map_memory`.  Every round maps at least one page or returns, so one
round for each page and one to leave the loop are enough. -/
def pdtMapMemory (layout : Layout) (pdt paddr vaddr size : Nat)
    (rw pl : UInt8) (machine : Machine) : Option (Nat × Machine) :=
  let size := alignUp size fourKb
  pdtMapLoop layout pdt rw pl (size / fourKb + 1) paddr vaddr size 0 machine

/-- `pdt_map_kernel_memory`. -/
def pdtMapKernelMemory (layout : Layout) (paddr vaddr size : Nat)
    (rw pl : UInt8) (machine : Machine) : Option (Nat × Machine) :=
  pdtMapMemory layout layout.kernelPdt paddr vaddr size rw pl machine

/-- The loop of `pt_unmap_memory`. -/
def ptUnmapLoop (layout : Layout) (pdtIdx size : Nat) :
    Nat → Nat → Machine → Nat × Machine
  | 0, freedSize, machine => (freedSize, machine)
  | remaining + 1, freedSize, machine =>
      let ptIdx := 1023 - remaining
      let pt := window layout machine
      if freedSize < size then
        if pdtIdx = kernelPtPdtIdx ∧ ptIdx = kernelTmpPtIdx then
          (freedSize, machine)
        else
          ptUnmapLoop layout pdtIdx size remaining (w32 (freedSize + fourKb))
            (if (machine.mem pt ptIdx).isPresent then
              machine.setEntry pt ptIdx Entry.empty
            else machine)
      else (freedSize, machine)

/-- `pt_unmap_memory` on the table in the window. -/
def ptUnmapMemory (layout : Layout) (pdtIdx vaddr size : Nat)
    (machine : Machine) : Nat × Machine :=
  ptUnmapLoop layout pdtIdx size (numEntries - virtualToPtIdx vaddr) 0 machine

/-- One iteration of `pdt_unmap_memory`, on `vaddr` and `freed_size`. -/
def pdtUnmapStep (layout : Layout) (pdt size : Nat) :
    Nat × Nat × Machine → Nat × Nat × Machine
  | (vaddr, freedSize, machine) =>
      let pdtIdx := virtualToPdtIdx vaddr
      if (machine.mem pdt pdtIdx).isPresent then
        let ptPaddr := (machine.mem pdt pdtIdx).paddr
        let tmpEntry := kernelGetTemporaryEntry layout machine
        let machine := kernelMapTemporaryMemory layout ptPaddr machine
        let (freedSize, machine) :=
          ptUnmapMemory layout pdtIdx vaddr size machine
        let machine := kernelSetTemporaryEntry layout tmpEntry machine
        let machine :=
          if freedSize = fourMb ∧ pdtIdx ≠ kernelPtPdtIdx then
            (pfaFree layout ptPaddr machine).setEntry pdt pdtIdx Entry.empty
          else machine
        (w32 (vaddr + freedSize), freedSize, machine)
      else (alignUp vaddr fourMb, freedSize, machine)

/-- The loop of `pdt_unmap_memory`; `none` when it does not end within the
fuel. -/
def pdtUnmapLoop (layout : Layout) (pdt size endVaddr : Nat) :
    Nat → Nat × Nat × Machine → Option (Nat × Machine)
  | 0, _ => none
  | fuel + 1, state =>
      if state.1 < endVaddr then
        pdtUnmapLoop layout pdt size endVaddr fuel
          (pdtUnmapStep layout pdt size state)
      else some state.2

/-- `pdt_unmap_memory`. -/
def pdtUnmapMemory (layout : Layout) (fuel pdt vaddr size : Nat)
    (machine : Machine) : Option (Nat × Machine) :=
  let size := alignUp size fourKb
  pdtUnmapLoop layout pdt size (w32 (vaddr + size)) fuel (vaddr, 0, machine)

/-- `pdt_unmap_kernel_memory`. -/
def pdtUnmapKernelMemory (layout : Layout) (fuel vaddr size : Nat)
    (machine : Machine) : Option (Nat × Machine) :=
  pdtUnmapMemory layout fuel layout.kernelPdt vaddr size machine

/-- The loop of `pt_kernel_find_next_vaddr` over the table in the window. -/
def ptFindLoop (layout : Layout) (pdtIdx numToFind : Nat)
    (machine : Machine) : Nat → Nat → Nat → Nat
  | 0, _, _ => 0
  | remaining + 1, numFound, orgI =>
      let i := 1023 - remaining
      if (machine.mem (window layout machine) i).isPresent ∨
          pdtIdx = kernelPtPdtIdx ∧ i = kernelTmpPtIdx then
        ptFindLoop layout pdtIdx numToFind machine remaining 0 orgI
      else
        let orgI := if numFound = 0 then i else orgI
        let numFound := numFound + 1
        if numFound = numToFind then (pdtIdx <<< 22) ||| (orgI <<< 12)
        else ptFindLoop layout pdtIdx numToFind machine remaining numFound orgI

/-- `pt_kernel_find_next_vaddr`. -/
def ptKernelFindNextVaddr (layout : Layout) (pdtIdx size : Nat)
    (machine : Machine) : Nat :=
  ptFindLoop layout pdtIdx (alignUp size fourKb / fourKb) machine numEntries
    0 0

/-- The loop of `pdt_kernel_find_next_vaddr`; the first argument counts the
slots that are left. -/
def pdtFindLoop (layout : Layout) (size : Nat) :
    Nat → Machine → Nat × Machine
  | 0, machine => (0, machine)
  | remaining + 1, machine =>
      let pdtIdx := 1023 - remaining
      let entry := machine.mem layout.kernelPdt pdtIdx
      let (vaddr, machine) :=
        if entry.isPresent then
          let tmpEntry := kernelGetTemporaryEntry layout machine
          let machine := kernelMapTemporaryMemory layout entry.paddr machine
          (ptKernelFindNextVaddr layout pdtIdx size machine,
            kernelSetTemporaryEntry layout tmpEntry machine)
        else (pdtIdx <<< 22, machine)
      if vaddr ≠ 0 then (vaddr, machine)
      else pdtFindLoop layout size remaining machine

/-- `pdt_kernel_find_next_vaddr`. -/
def pdtKernelFindNextVaddr (layout : Layout) (size : Nat)
    (machine : Machine) : Nat × Machine :=
  pdtFindLoop layout size (numEntries - kernelPtPdtIdx) machine

/-- The loop of `pdt_load_process_pdt`. -/
def pdtLoadLoop (layout : Layout) (pdt : Nat) : Nat → Machine → Machine
  | 0, machine => machine
  | remaining + 1, machine =>
      let i := 1023 - remaining
      let entry := machine.mem layout.kernelPdt i
      pdtLoadLoop layout pdt remaining
        (if entry.isPresent then machine.setEntry pdt i entry else machine)

/-- `pdt_load_process_pdt`, for the directory in frame `pdt`. -/
def pdtLoadProcessPdt (layout : Layout) (pdt pdtPaddr : Nat)
    (machine : Machine) : Machine :=
  let machine := machine.setEntry pdt 0 (machine.mem layout.kernelPdt 0)
  let machine := pdtLoadLoop layout pdt (numEntries - kernelPtPdtIdx) machine
  { machine with active := pdtPaddr / fourKb }

/-- `memset` of the page at a kernel address. -/
def zeroPage (layout : Layout) (vaddr : Nat) (machine : Machine) : Machine :=
  match machine.translate layout.kernelPdt vaddr with
  | some frame => machine.zeroFrame frame
  | none => { machine with faulted := true }

/-- `pdt_create`: the directory's address, `*out_paddr`, and the machine. -/
def pdtCreate (layout : Layout) (machine : Machine) :
    Option (Nat × Nat × Machine) :=
  let (pdtPaddr, machine) := pfaAllocate layout 1 machine
  let (pdtVaddr, machine) := pdtKernelFindNextVaddr layout pdtSize machine
  match pdtMapKernelMemory layout pdtPaddr pdtVaddr pdtSize 1 0 machine with
  | none => none
  | some (size, machine) =>
      if size < pdtSize then some (0, 0, pfaFree layout pdtPaddr machine)
      else some (pdtVaddr, pdtPaddr, zeroPage layout pdtVaddr machine)

end Newbos
