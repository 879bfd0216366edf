import Newbos.Frames.Map

/-!
# The kernel heap

`kmalloc` and `kfree` keep a circular list of free blocks, threaded through
the blocks' own headers and entered at a roving pointer.  Growing the heap
asks for page frames, for a virtual address and for a mapping; these three
calls are a parameter, so that the list can be studied for every outcome and
later run on the paging code.
-/

namespace Newbos

/-- `header_t`.  `size` counts header units of eight bytes. -/
structure Header where
  next : Nat
  size : Nat
  deriving DecidableEq, Repr

/-- `sizeof(header_t)`. -/
abbrev headerSize : Nat := 8

/-- `MIN_BLOCK_SIZE`, in units. -/
abbrev minBlockSize : Nat := 1024

/-- One range of pages obtained by `acquire_more_heap`. -/
structure HeapRange where
  vaddr : Nat
  paddr : Nat
  pages : Nat
  deriving DecidableEq, Repr

/-- Headers by address, `freep`, and the history of acquired ranges. -/
structure Heap where
  mem : Nat → Header
  freep : Nat
  ranges : List HeapRange

/-- The heap before the first call: `freep` is a null pointer. -/
def Heap.initial (mem : Nat → Header) : Heap :=
  { mem := mem
    freep := 0
    ranges := [] }

/-- `pfa_allocate`, `pdt_kernel_find_next_vaddr` and `pdt_map_kernel_memory`
as the heap uses them. -/
structure PageSource (σ : Type) where
  pfaAllocate : Nat → σ → Nat × σ
  findNextVaddr : Nat → σ → Nat × σ
  mapKernelMemory : Nat → Nat → Nat → UInt8 → UInt8 → σ → Option (Nat × σ)

/-- `p + n` for a pointer to headers. -/
def headerAdd (p n : Nat) : Nat :=
  w32 (p + headerSize * n)

def setNext (mem : Nat → Header) (address next : Nat) : Nat → Header :=
  Store.set mem address { mem address with next := next }

def setSize (mem : Nat → Header) (address size : Nat) : Nat → Header :=
  Store.set mem address { mem address with size := size }

/-- The search loop of `kfree`: the free block after which `bp` belongs. -/
def kfreeSearch (mem : Nat → Header) (bp : Nat) : Nat → Nat → Option Nat
  | 0, _ => none
  | fuel + 1, p =>
      if p < bp ∧ bp < (mem p).next then some p
      else if (mem p).next ≤ p ∧ (p < bp ∨ bp < (mem p).next) then some p
      else kfreeSearch mem bp fuel (mem p).next

/-- Join `bp` to its upper neighbour, or link it to the one after `p`. -/
def joinUpper (mem : Nat → Header) (p bp : Nat) : Nat → Header :=
  if headerAdd bp (mem bp).size = (mem p).next then
    let mem := setSize mem bp (w32 ((mem bp).size + (mem (mem p).next).size))
    setNext mem bp (mem (mem p).next).next
  else
    setNext mem bp (mem p).next

/-- Join `bp` to its lower neighbour `p`, or link `p` to it. -/
def joinLower (mem : Nat → Header) (p bp : Nat) : Nat → Header :=
  if headerAdd p (mem p).size = bp then
    let mem := setSize mem p (w32 ((mem p).size + (mem bp).size))
    setNext mem p (mem bp).next
  else
    setNext mem p bp

/-- `kfree`; `none` means that the search has not ended within the fuel. -/
def kfree (fuel ap : Nat) (heap : Heap) : Option Heap :=
  if ap = 0 then some heap
  else
    let bp := sub32 ap headerSize
    match kfreeSearch heap.mem bp fuel heap.freep with
    | none => none
    | some p =>
        some { heap with
          mem := joinLower (joinUpper heap.mem p bp) p bp
          freep := p }

/-- The part of `acquire_more_heap` that asks for memory: how many pages, and
the range when all three calls succeed. -/
def growthPages (nunits : Nat) : Nat :=
  let nunits := if nunits < minBlockSize then minBlockSize else nunits
  divCeil (w32 (nunits * headerSize)) fourKb

def growth {σ : Type} (source : PageSource σ) (nunits : Nat) (state : σ) :
    Option (Option HeapRange × σ) :=
  let pageFrames := growthPages nunits
  let bytes := w32 (pageFrames * fourKb)
  let (paddr, state) := source.pfaAllocate pageFrames state
  if paddr = 0 then some (none, state)
  else
    let (vaddr, state) := source.findNextVaddr bytes state
    if vaddr = 0 then some (none, state)
    else
      match source.mapKernelMemory paddr vaddr bytes 1 0 state with
      | none => none
      | some (mappedMem, state) =>
          if mappedMem < bytes then some (none, state)
          else some (some ⟨vaddr, paddr, pageFrames⟩, state)

/-- `acquire_more_heap`: the new `freep`, or 0. -/
def acquireMoreHeap {σ : Type} (source : PageSource σ) (fuel nunits : Nat)
    (heap : Heap) (state : σ) : Option (Nat × Heap × σ) :=
  match growth source nunits state with
  | none => none
  | some (none, state) => some (0, heap, state)
  | some (some range, state) =>
      let bytes := w32 (range.pages * fourKb)
      let heap :=
        { heap with
          mem := setSize heap.mem range.vaddr (bytes / headerSize)
          ranges := heap.ranges ++ [range] }
      match kfree fuel (headerAdd range.vaddr 1) heap with
      | none => none
      | some heap => some (heap.freep, heap, state)

/-- Take `nunits` from the free block `p` that follows `prevp`: the whole
block, or its tail end. -/
def takeBlock (heap : Heap) (nunits prevp p : Nat) : Nat × Heap :=
  if (heap.mem p).size = nunits then
    (headerAdd p 1,
      { heap with
        mem := setNext heap.mem prevp (heap.mem p).next
        freep := prevp })
  else
    let size := (heap.mem p).size - nunits
    let mem := setSize heap.mem p size
    let tail := headerAdd p size
    (headerAdd tail 1,
      { heap with
        mem := setSize mem tail nunits
        freep := prevp })

/-- The search loop of `kmalloc`. -/
def kmallocSearch {σ : Type} (source : PageSource σ) (nunits : Nat) :
    Nat → Nat → Nat → Heap → σ → Option (Nat × Heap × σ)
  | 0, _, _, _, _ => none
  | fuel + 1, prevp, p, heap, state =>
      if nunits ≤ (heap.mem p).size then
        let (result, heap) := takeBlock heap nunits prevp p
        some (result, heap, state)
      else if p = heap.freep then
        match acquireMoreHeap source fuel nunits heap state with
        | none => none
        | some (p, heap, state) =>
            if p = 0 then some (0, heap, state)
            else
              kmallocSearch source nunits fuel p (heap.mem p).next heap state
      else
        kmallocSearch source nunits fuel p (heap.mem p).next heap state

/-- First use of the heap: `base` is the only element of the free list. -/
def initFreeList (base : Nat) (heap : Heap) : Heap :=
  if heap.freep = 0 then
    { heap with
      mem := setSize (setNext heap.mem base base) base 0
      freep := base }
  else heap

/-- `kmalloc`: the address of the block, or 0. -/
def kmalloc {σ : Type} (source : PageSource σ) (base fuel nbytes : Nat)
    (heap : Heap) (state : σ) : Option (Nat × Heap × σ) :=
  if nbytes = 0 then some (0, heap, state)
  else
    let heap := initFreeList base heap
    let nunits := w32 (nbytes + headerSize - 1) / headerSize + 1
    kmallocSearch source nunits fuel heap.freep (heap.mem heap.freep).next
      heap state

end Newbos
