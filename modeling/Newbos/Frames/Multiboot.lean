import Newbos.Frames.Map
import Newbos.Library.Loop

/-!
# The boot loader's memory map

`fill_memory_map` walks the list of entries that the boot loader left in
memory and records the usable ones above 1 MiB; `frames_init` then rounds each
recorded region to whole pages.  The addresses and lengths of an entry have 64
bits, those of a recorded region 32.
-/

namespace Newbos

/-- A little-endian number of so many bytes. -/
def readBytes (memory : Nat → UInt8) (addr : Nat) : Nat → Nat
  | 0 => 0
  | count + 1 =>
      (memory (w32 addr)).toNat + 256 * readBytes memory (addr + 1) count

/-- `struct multiboot_mmap_entry`. -/
structure MultibootMmapEntry where
  size : Nat
  addr : Nat
  len : Nat
  type : Nat
  deriving DecidableEq, Repr

/-- The packed entry at an address. -/
def mmapEntryAt (memory : Nat → UInt8) (entry : Nat) : MultibootMmapEntry :=
  { size := readBytes memory entry 4
    addr := readBytes memory (entry + 4) 8
    len := readBytes memory (entry + 12) 8
    type := readBytes memory (entry + 20) 4 }

/-- `struct multiboot_info`, as far as it describes the memory map. -/
structure MultibootInfo where
  flags : Nat
  mmapLength : Nat
  mmapAddr : Nat

/-- `MULTIBOOT_MEMORY_AVAILABLE`. -/
abbrev multibootMemoryAvailable : Nat := 1

/-- An entry describes the byte at a 64-bit physical address. -/
def MultibootMmapEntry.Contains (entry : MultibootMmapEntry) (paddr : Nat) :
    Prop :=
  entry.addr ≤ paddr ∧ paddr < entry.addr + entry.len

/-- What the body of `fill_memory_map`'s loop records for an entry. -/
def recordedRegion (kernelPhysicalStart kernelPhysicalEnd : Nat)
    (entry : MultibootMmapEntry) : Option MemoryMap :=
  if entry.type = multibootMemoryAvailable then
    let addr := w32 entry.addr
    let len := w32 entry.len
    let region : MemoryMap :=
      if addr ≤ kernelPhysicalStart ∧ kernelPhysicalEnd < w32 (addr + len) then
        ⟨kernelPhysicalEnd, sub32 len kernelPhysicalEnd⟩
      else ⟨addr, len⟩
    if 0x100000 < region.addr then some region else none
  else none

/-- The address that the walk takes for the next entry. -/
def nextMmapEntry (memory : Nat → UInt8) (entry : Nat) : Nat :=
  w32 (entry + (mmapEntryAt memory entry).size + 4)

/-- The loop of `fill_memory_map` up to `stop`; `stored` is the part of `mmap`
that is filled, and the fuel bounds the number of entries. -/
def fillMemoryMapLoop (memory : Nat → UInt8)
    (kernelPhysicalStart kernelPhysicalEnd stop : Nat) :
    Nat → Nat → List MemoryMap → Option (List MemoryMap)
  | 0, _, _ => none
  | fuel + 1, entry, stored =>
      if entry < stop then
        fillMemoryMapLoop memory kernelPhysicalStart kernelPhysicalEnd stop
          fuel (nextMmapEntry memory entry)
          (stored ++ (recordedRegion kernelPhysicalStart kernelPhysicalEnd
            (mmapEntryAt memory entry)).toList)
      else some stored

/-- The end of the list of entries. -/
def MultibootInfo.mmapEnd (info : MultibootInfo) : Nat :=
  w32 (info.mmapAddr + info.mmapLength)

/-- The boot loader did leave a memory map. -/
def MultibootInfo.HasMmap (info : MultibootInfo) : Prop :=
  info.flags &&& 0x00000040 ≠ 0

instance (info : MultibootInfo) : Decidable info.HasMmap :=
  inferInstanceAs (Decidable (_ ≠ _))

/-- `fill_memory_map`: the stored regions, in the order of `mmap`. -/
def fillMemoryMap (memory : Nat → UInt8)
    (kernelPhysicalStart kernelPhysicalEnd : Nat) (info : MultibootInfo)
    (fuel : Nat) : Option (List MemoryMap) :=
  if info.HasMmap then
    fillMemoryMapLoop memory kernelPhysicalStart kernelPhysicalEnd
      info.mmapEnd fuel info.mmapAddr []
  else some []

/-- The alignment loop of `frames_init` for one region. -/
def alignRegion (region : MemoryMap) : MemoryMap :=
  let addr := alignUp region.addr fourKb
  let len := alignDown (sub32 region.len (sub32 addr region.addr)) fourKb
  ⟨addr, len⟩

/-- The alignment loop of `frames_init`. -/
def alignRegions (mmap : List MemoryMap) : List MemoryMap :=
  mmap.map alignRegion

/-- `MAX_NUM_MEMORY_MAP`, the size of the array `mmap`. -/
abbrev maxNumMemoryMap : Nat := 100

/-! ## The entries of a walk -/

/-- The entries that the walk meets from an address to the end of the list. -/
inductive MmapEntries (memory : Nat → UInt8) (stop : Nat) :
    Nat → List MultibootMmapEntry → Prop where
  | done {entry : Nat} (past : stop ≤ entry) :
      MmapEntries memory stop entry []
  | entry {entry : Nat} {rest : List MultibootMmapEntry}
      (before : entry < stop)
      (later : MmapEntries memory stop (nextMmapEntry memory entry) rest) :
      MmapEntries memory stop entry (mmapEntryAt memory entry :: rest)

/-! ## Writing a list of entries

Every list of entries whose fields fit is the walk of some memory. -/

/-- The bytes of a little-endian number. -/
def littleEndian (value : Nat) : Nat → List UInt8
  | 0 => []
  | count + 1 => UInt8.ofNat value :: littleEndian (value / 256) count

@[simp] theorem littleEndian_length (value count : Nat) :
    (littleEndian value count).length = count := by
  induction count generalizing value with
  | zero => rfl
  | succ count induction => rw [littleEndian, List.length_cons, induction]

/-- The bytes of a packed entry. -/
def MultibootMmapEntry.bytes (entry : MultibootMmapEntry) : List UInt8 :=
  littleEndian entry.size 4 ++ littleEndian entry.addr 8 ++
    littleEndian entry.len 8 ++ littleEndian entry.type 4

@[simp] theorem MultibootMmapEntry.bytes_length
    (entry : MultibootMmapEntry) : entry.bytes.length = 24 := by
  simp [MultibootMmapEntry.bytes]

/-- The fields of an entry as a boot loader writes it, without extensions. -/
structure MultibootMmapEntry.Plain (entry : MultibootMmapEntry) : Prop where
  size : entry.size = 20
  addr : entry.addr < 256 ^ 8
  len : entry.len < 256 ^ 8
  type : entry.type < 256 ^ 4

/-- Memory that holds some bytes at an address. -/
def bufferAt (base : Nat) (bytes : List UInt8) : Nat → UInt8 :=
  fun addr => bytes.getD (addr - base) 0

section Buffer

variable {base : Nat} {before after : List UInt8}

theorem readBytes_littleEndian {value count : Nat}
    (fits : value < 256 ^ count)
    (room : base + (before ++ littleEndian value count ++ after).length ≤
      4294967296) :
    readBytes (bufferAt base (before ++ littleEndian value count ++ after))
      (base + before.length) count = value := by
  induction count generalizing value before with
  | zero =>
      rw [readBytes]
      omega
  | succ count induction =>
      have regroup : before ++ littleEndian value (count + 1) ++ after =
          (before ++ [UInt8.ofNat value]) ++
            littleEndian (value / 256) count ++ after := by
        simp [littleEndian]
      have first : bufferAt base (before ++ littleEndian value (count + 1) ++
          after) (w32 (base + before.length)) = UInt8.ofNat value := by
        have small : base + before.length < 4294967296 := by
          simp at room
          omega
        rw [w32_of_lt small, bufferAt, Nat.add_sub_cancel_left, littleEndian]
        simp
      have restFits : value / 256 < 256 ^ count := by
        rw [Nat.div_lt_iff_lt_mul (by decide)]
        rwa [← Nat.pow_succ]
      rw [regroup] at room
      have rest := induction restFits room
      rw [← regroup, List.length_append, List.length_singleton,
        ← Nat.add_assoc] at rest
      rw [readBytes, first, rest, UInt8.toNat_ofNat']
      omega

theorem mmapEntryAt_bytes {entry : MultibootMmapEntry} (plain : entry.Plain)
    (room : base + (before ++ entry.bytes ++ after).length ≤ 4294967296) :
    mmapEntryAt (bufferAt base (before ++ entry.bytes ++ after))
      (base + before.length) = entry := by
  have field (first : List UInt8) (value count : Nat) (last : List UInt8)
      (split : first ++ littleEndian value count ++ last = entry.bytes)
      (fits : value < 256 ^ count) :
      readBytes (bufferAt base (before ++ entry.bytes ++ after))
        (base + before.length + first.length) count = value := by
    have regroup : before ++ entry.bytes ++ after =
        (before ++ first) ++ littleEndian value count ++ (last ++ after) := by
      simp [← split]
    rw [regroup] at room ⊢
    rw [Nat.add_assoc, ← List.length_append]
    exact readBytes_littleEndian fits room
  have size := field [] entry.size 4 (littleEndian entry.addr 8 ++
    littleEndian entry.len 8 ++ littleEndian entry.type 4)
    (by simp [MultibootMmapEntry.bytes]) (by rw [plain.size]; decide)
  have addr := field (littleEndian entry.size 4) entry.addr 8
    (littleEndian entry.len 8 ++ littleEndian entry.type 4)
    (by simp [MultibootMmapEntry.bytes]) plain.addr
  have len := field (littleEndian entry.size 4 ++ littleEndian entry.addr 8)
    entry.len 8 (littleEndian entry.type 4)
    (by simp [MultibootMmapEntry.bytes]) plain.len
  have type := field (littleEndian entry.size 4 ++
    littleEndian entry.addr 8 ++ littleEndian entry.len 8)
    entry.type 4 [] (by simp [MultibootMmapEntry.bytes]) plain.type
  simp only [List.length_append, littleEndian_length, List.length_nil,
    Nat.add_zero, Nat.reduceAdd] at size addr len type
  rw [mmapEntryAt, size, addr, len, type]

theorem mmapEntries_bufferAt {entries : List MultibootMmapEntry}
    (plain : ∀ entry ∈ entries, entry.Plain)
    (room : base + (before ++
      entries.flatMap MultibootMmapEntry.bytes).length < 4294967296) :
    MmapEntries
      (bufferAt base (before ++ entries.flatMap MultibootMmapEntry.bytes))
      (base + (before ++ entries.flatMap MultibootMmapEntry.bytes).length)
      (base + before.length) entries := by
  induction entries generalizing before with
  | nil => exact .done (by simp)
  | cons first rest induction =>
      have regroup : before ++
          (first :: rest).flatMap MultibootMmapEntry.bytes =
            (before ++ first.bytes) ++
              rest.flatMap MultibootMmapEntry.bytes := by
        simp
      rw [regroup] at room ⊢
      have here := mmapEntryAt_bytes (plain first (by simp))
        (Nat.le_of_lt room)
      have next : nextMmapEntry (bufferAt base ((before ++ first.bytes) ++
          rest.flatMap MultibootMmapEntry.bytes)) (base + before.length) =
            base + (before ++ first.bytes).length := by
        rw [nextMmapEntry, here, (plain first (by simp)).size]
        simp only [List.length_append,
          MultibootMmapEntry.bytes_length] at room ⊢
        rw [w32_of_lt (by omega)]
        omega
      have later := induction
        (fun entry member => plain entry (List.mem_cons_of_mem _ member)) room
      rw [← next] at later
      have inFront : base + before.length < base + ((before ++ first.bytes) ++
          rest.flatMap MultibootMmapEntry.bytes).length := by
        simp only [List.length_append, MultibootMmapEntry.bytes_length]
        omega
      have walk := MmapEntries.entry inFront later
      rwa [here] at walk

/-- The header of a list of entries at an address. -/
def MultibootInfo.ofEntries (base : Nat)
    (entries : List MultibootMmapEntry) : MultibootInfo :=
  { flags := 0x00000040
    mmapLength := (entries.flatMap MultibootMmapEntry.bytes).length
    mmapAddr := base }

theorem MultibootInfo.ofEntries_walk (base : Nat)
    (entries : List MultibootMmapEntry)
    (plain : ∀ entry ∈ entries, entry.Plain)
    (room : base + (entries.flatMap MultibootMmapEntry.bytes).length <
      4294967296) :
    MmapEntries (bufferAt base (entries.flatMap MultibootMmapEntry.bytes))
      (MultibootInfo.ofEntries base entries).mmapEnd
      (MultibootInfo.ofEntries base entries).mmapAddr entries := by
  have bare : base + ([] ++
      entries.flatMap MultibootMmapEntry.bytes).length < 4294967296 := room
  have walk := mmapEntries_bufferAt plain bare
  rw [MultibootInfo.mmapEnd, MultibootInfo.ofEntries]
  simp only
  rw [w32_of_lt room]
  exact walk

end Buffer

section Walk

variable {memory : Nat → UInt8} {kernelPhysicalStart kernelPhysicalEnd : Nat}
  {stop entry : Nat} {entries : List MultibootMmapEntry}

theorem MmapEntries.unique {others : List MultibootMmapEntry}
    (first : MmapEntries memory stop entry entries)
    (second : MmapEntries memory stop entry others) : entries = others := by
  induction first generalizing others with
  | done past =>
      cases second with
      | done _ => rfl
      | entry before _ => exact absurd before (Nat.not_lt_of_le past)
  | entry before later induction =>
      cases second with
      | done past => exact absurd before (Nat.not_lt_of_le past)
      | entry _ others => rw [induction others]

theorem MmapEntries.fill (walk : MmapEntries memory stop entry entries)
    {fuel : Nat} (enough : entries.length < fuel) (stored : List MemoryMap) :
    fillMemoryMapLoop memory kernelPhysicalStart kernelPhysicalEnd stop fuel
        entry stored =
      some (stored ++ entries.filterMap
        (recordedRegion kernelPhysicalStart kernelPhysicalEnd)) := by
  induction walk generalizing fuel stored with
  | done past =>
      cases fuel with
      | zero => exact absurd enough (Nat.not_lt_zero _)
      | succ fuel =>
          rw [fillMemoryMapLoop, if_neg (Nat.not_lt_of_le past)]
          simp
  | entry before later induction =>
      cases fuel with
      | zero => exact absurd enough (Nat.not_lt_zero _)
      | succ fuel =>
          rw [fillMemoryMapLoop, if_pos before,
            induction (Nat.lt_of_succ_lt_succ enough), List.filterMap_cons]
          cases recordedRegion kernelPhysicalStart kernelPhysicalEnd _ with
          | none => simp
          | some region => simp

theorem fillMemoryMapLoop_entries {fuel : Nat}
    {stored mmap : List MemoryMap}
    (returns : fillMemoryMapLoop memory kernelPhysicalStart kernelPhysicalEnd
      stop fuel entry stored = some mmap) :
    ∃ entries, MmapEntries memory stop entry entries ∧
      mmap = stored ++ entries.filterMap
        (recordedRegion kernelPhysicalStart kernelPhysicalEnd) := by
  induction fuel generalizing entry stored with
  | zero => cases returns
  | succ fuel induction =>
      rw [fillMemoryMapLoop] at returns
      split_ifs at returns with before
      · obtain ⟨rest, later, recorded⟩ := induction returns
        refine ⟨_, .entry before later, ?_⟩
        rw [recorded, List.filterMap_cons]
        cases recordedRegion kernelPhysicalStart kernelPhysicalEnd _ with
        | none => simp
        | some region => simp
      · cases returns
        exact ⟨[], .done (Nat.le_of_not_lt before), by simp⟩

variable {info : MultibootInfo}

theorem fillMemoryMap_eq {fuel : Nat} {mmap : List MemoryMap}
    (hasMmap : info.HasMmap)
    (walk : MmapEntries memory info.mmapEnd info.mmapAddr entries)
    (returns : fillMemoryMap memory kernelPhysicalStart kernelPhysicalEnd
      info fuel = some mmap) :
    mmap = entries.filterMap
      (recordedRegion kernelPhysicalStart kernelPhysicalEnd) := by
  rw [fillMemoryMap, if_pos hasMmap] at returns
  obtain ⟨others, otherWalk, recorded⟩ := fillMemoryMapLoop_entries returns
  rw [recorded, walk.unique otherWalk, List.nil_append]

/-! ## The kernel's region -/

/-- The region of an available entry that holds the kernel.  Its end is lower
by the address of the entry than it should be. -/
theorem fill_memory_map_kernel_region_iff {fuel : Nat}
    {mmap : List MemoryMap} {before after : List MultibootMmapEntry}
    {holder : MultibootMmapEntry} (hasMmap : info.HasMmap)
    (walk : MmapEntries memory info.mmapEnd info.mmapAddr
      (before ++ holder :: after))
    (returns : fillMemoryMap memory kernelPhysicalStart kernelPhysicalEnd
      info fuel = some mmap)
    (available : holder.type = multibootMemoryAvailable)
    (small : holder.addr + holder.len < 4294967296)
    (aboveOneMb : 0x100000 ≤ kernelPhysicalStart)
    (nonempty : kernelPhysicalStart < kernelPhysicalEnd)
    (lower : holder.addr ≤ kernelPhysicalStart)
    (upper : kernelPhysicalEnd < holder.addr + holder.len) :
    ∃ region : MemoryMap,
      mmap = before.filterMap
            (recordedRegion kernelPhysicalStart kernelPhysicalEnd) ++
          region :: after.filterMap
            (recordedRegion kernelPhysicalStart kernelPhysicalEnd) ∧
        ((∀ paddr, region.Contains paddr ↔
            kernelPhysicalEnd ≤ paddr ∧ paddr < holder.addr + holder.len) ↔
          holder.addr = 0) := by
  have addrEq : w32 holder.addr = holder.addr := w32_of_lt (by omega)
  have lenEq : w32 holder.len = holder.len := w32_of_lt (by omega)
  have isCut : holder.addr ≤ kernelPhysicalStart ∧
      kernelPhysicalEnd < holder.addr + holder.len := ⟨lower, upper⟩
  have above : 0x100000 < kernelPhysicalEnd := by omega
  have recorded : recordedRegion kernelPhysicalStart kernelPhysicalEnd
      holder =
        some ⟨kernelPhysicalEnd, sub32 holder.len kernelPhysicalEnd⟩ := by
    rw [recordedRegion, if_pos available]
    simp only [addrEq, lenEq, w32_of_lt small, if_pos isCut, if_pos above]
  refine ⟨⟨kernelPhysicalEnd, sub32 holder.len kernelPhysicalEnd⟩, ?_, ?_⟩
  · rw [fillMemoryMap_eq hasMmap walk returns, List.filterMap_append,
      List.filterMap_cons, recorded]
  · simp only [MemoryMap.Contains]
    constructor
    · intro exact
      -- The last byte of the holder and the byte behind it fix the length.
      have last := exact (holder.addr + holder.len - 1)
      have behind := exact (holder.addr + holder.len)
      unfold sub32 at last behind
      split_ifs at last behind <;> omega
    · intro atZero paddr
      rw [sub32_of_le (by omega)]
      omega

end Walk

/-- The memory of an emulator between 1 MiB and 128 MiB. -/
def ramEntry : MultibootMmapEntry :=
  { size := 20
    addr := 0x100000
    len := 0x7EE0000
    type := multibootMemoryAvailable }

theorem ramEntry_plain : ramEntry.Plain where
  size := rfl
  addr := by decide
  len := by decide
  type := by decide

/-- RAM from address 0 on. -/
def lowRamEntry : MultibootMmapEntry :=
  { ramEntry with addr := 0 }

theorem lowRamEntry_plain : lowRamEntry.Plain where
  size := rfl
  addr := by decide
  len := by decide
  type := by decide

/-- A kernel of 64 KiB at 1 MiB, in RAM that starts at address 0. -/
theorem fill_memory_map_kernel_region_iff_atZero :
    ∃ region : MemoryMap,
      fillMemoryMap (bufferAt 0x9000
          ([lowRamEntry].flatMap MultibootMmapEntry.bytes)) 0x100000 0x110000
          (MultibootInfo.ofEntries 0x9000 [lowRamEntry]) 2 =
        some [region] ∧
      ∀ paddr, region.Contains paddr ↔
        0x110000 ≤ paddr ∧ paddr < 0x7EE0000 := by
  have returns : fillMemoryMap (bufferAt 0x9000
      ([lowRamEntry].flatMap MultibootMmapEntry.bytes)) 0x100000 0x110000
      (MultibootInfo.ofEntries 0x9000 [lowRamEntry]) 2 =
        some [⟨0x110000, 0x7DD0000⟩] := by decide +kernel
  have walk : MmapEntries _ _ _ ([] ++ lowRamEntry :: []) :=
    MultibootInfo.ofEntries_walk 0x9000 [lowRamEntry]
      (by simp [lowRamEntry_plain]) (by decide)
  obtain ⟨region, same, isExact⟩ := fill_memory_map_kernel_region_iff
    (by decide) walk returns rfl (by decide) (by decide) (by decide)
    (by decide) (by decide)
  have regionEq : [⟨0x110000, 0x7DD0000⟩] = [region] := same
  refine ⟨region, ?_, isExact.mpr rfl⟩
  rw [← regionEq]
  exact returns

/-- In RAM that starts at 1 MiB the last MiB is lost. -/
theorem fill_memory_map_drops_ram :
    fillMemoryMap (bufferAt 0x9000
        ([ramEntry].flatMap MultibootMmapEntry.bytes)) 0x100000 0x110000
        (MultibootInfo.ofEntries 0x9000 [ramEntry]) 2 =
      some [⟨0x110000, 0x7DD0000⟩] ∧
    ramEntry.Contains 0x7EE0000 ∧
    ¬(⟨0x110000, 0x7DD0000⟩ : MemoryMap).Contains 0x7EE0000 := by
  refine ⟨by decide +kernel, ?_, ?_⟩
  · simp [MultibootMmapEntry.Contains, ramEntry]
  · simp [MemoryMap.Contains]

/-! ## Free RAM -/

section Walk

variable {memory : Nat → UInt8} {kernelPhysicalStart kernelPhysicalEnd : Nat}
  {stop entry : Nat} {entries : List MultibootMmapEntry}
  {info : MultibootInfo}

/-- Two entries share no byte. -/
def MultibootMmapEntry.Disjoint (first second : MultibootMmapEntry) : Prop :=
  ∀ paddr, first.Contains paddr → ¬second.Contains paddr

instance : Std.Symm MultibootMmapEntry.Disjoint where
  symm _ _ disjoint paddr inSecond inFirst := disjoint paddr inFirst inSecond

/-- An entry covers the whole kernel image. -/
def MultibootMmapEntry.HoldsKernel (entry : MultibootMmapEntry)
    (kernelPhysicalStart kernelPhysicalEnd : Nat) : Prop :=
  entry.addr ≤ kernelPhysicalStart ∧
    kernelPhysicalEnd ≤ entry.addr + entry.len

/-- A byte of RAM that the kernel image does not use. -/
def FreeByte (kernelPhysicalStart kernelPhysicalEnd : Nat)
    (entries : List MultibootMmapEntry) (paddr : Nat) : Prop :=
  (∃ entry ∈ entries,
      entry.type = multibootMemoryAvailable ∧ entry.Contains paddr) ∧
    ¬(kernelPhysicalStart ≤ paddr ∧ paddr < kernelPhysicalEnd)

/-- Where an available entry comes to lie when its address and length are
narrowed to 32 bits and it looks as if it held the kernel or not. -/
def NarrowedTo (kernelPhysicalStart kernelPhysicalEnd : Nat)
    (entry : MultibootMmapEntry) (paddr : Nat) : Prop :=
  if w32 entry.addr ≤ kernelPhysicalStart ∧
      kernelPhysicalEnd < w32 (w32 entry.addr + w32 entry.len) then
    0x100000 < kernelPhysicalEnd ∧ kernelPhysicalEnd ≤ paddr ∧
      paddr < kernelPhysicalEnd + sub32 (w32 entry.len) kernelPhysicalEnd
  else
    0x100000 < w32 entry.addr ∧ w32 entry.addr ≤ paddr ∧
      paddr < w32 entry.addr + w32 entry.len

/-- Entries whose narrowed form is not a part of them: the ones above 4 GiB,
and the kernel's own entry when its narrowed end is not behind the kernel or
its length is smaller than the kernel's end address. -/
def Displaced (kernelPhysicalStart kernelPhysicalEnd : Nat)
    (entry : MultibootMmapEntry) : Prop :=
  4294967296 ≤ entry.addr ∨
    (entry.HoldsKernel kernelPhysicalStart kernelPhysicalEnd ∧
      (w32 (entry.addr + entry.len) ≤ kernelPhysicalEnd ∨
        entry.len < kernelPhysicalEnd))

theorem recordedRegion_contains_iff {holder : MultibootMmapEntry}
    (available : holder.type = multibootMemoryAvailable) {paddr : Nat} :
    (∃ region, recordedRegion kernelPhysicalStart kernelPhysicalEnd holder =
        some region ∧ region.Contains paddr) ↔
      NarrowedTo kernelPhysicalStart kernelPhysicalEnd holder paddr := by
  simp only [recordedRegion, if_pos available, NarrowedTo]
  split_ifs <;> simp_all [MemoryMap.Contains]

/-- Narrowing an entry that is not displaced leaves a part of it, without the
kernel. -/
theorem NarrowedTo.inside {holder : MultibootMmapEntry} {paddr : Nat}
    (narrowed : NarrowedTo kernelPhysicalStart kernelPhysicalEnd holder paddr)
    (notDisplaced : ¬Displaced kernelPhysicalStart kernelPhysicalEnd holder)
    (nonempty : kernelPhysicalStart < kernelPhysicalEnd)
    (whole : holder.HoldsKernel kernelPhysicalStart kernelPhysicalEnd ∨
      ∀ byte, holder.Contains byte →
        ¬(kernelPhysicalStart ≤ byte ∧ byte < kernelPhysicalEnd)) :
    holder.Contains paddr ∧
      ¬(kernelPhysicalStart ≤ paddr ∧ paddr < kernelPhysicalEnd) := by
  simp only [Displaced, not_or, Nat.not_le] at notDisplaced
  obtain ⟨low, notCut⟩ := notDisplaced
  have addrEq : w32 holder.addr = holder.addr := w32_of_lt low
  have sumEq : w32 (holder.addr + w32 holder.len) =
      w32 (holder.addr + holder.len) := by simp [w32]
  have lenLe : w32 holder.len ≤ holder.len := Nat.mod_le _ _
  simp only [NarrowedTo, addrEq, sumEq] at narrowed
  rcases whole with holds | disjoint
  · have clear : ¬(w32 (holder.addr + holder.len) ≤ kernelPhysicalEnd ∨
        holder.len < kernelPhysicalEnd) := fun bad => notCut ⟨holds, bad⟩
    obtain ⟨start, finish⟩ := holds
    rw [if_pos ⟨start, by omega⟩] at narrowed
    unfold MultibootMmapEntry.Contains
    unfold sub32 at narrowed
    split_ifs at narrowed
    · omega
    · simp only [w32] at *
      omega
  · by_cases inFront : holder.addr ≤ kernelPhysicalStart
    · have outside := disjoint kernelPhysicalStart
      unfold MultibootMmapEntry.Contains at *
      have ends : holder.addr + holder.len ≤ kernelPhysicalStart := by
        by_contra later
        exact outside ⟨inFront, by omega⟩ ⟨Nat.le_refl _, nonempty⟩
      split_ifs at narrowed with cut
      · simp only [w32] at *
        omega
      · omega
    · rw [if_neg (fun cut => inFront cut.1)] at narrowed
      have inside : holder.Contains paddr := by
        unfold MultibootMmapEntry.Contains
        omega
      exact ⟨inside, disjoint paddr inside⟩

/-- Only free RAM is recorded exactly when the entries that narrowing
displaces happen to fall on free RAM as well. -/
theorem fill_memory_map_free_ram_iff {fuel : Nat} {mmap : List MemoryMap}
    {holder : MultibootMmapEntry} (hasMmap : info.HasMmap)
    (walk : MmapEntries memory info.mmapEnd info.mmapAddr entries)
    (returns : fillMemoryMap memory kernelPhysicalStart kernelPhysicalEnd
      info fuel = some mmap)
    (disjoint : entries.Pairwise MultibootMmapEntry.Disjoint)
    (nonempty : kernelPhysicalStart < kernelPhysicalEnd)
    (member : holder ∈ entries)
    (holds : holder.HoldsKernel kernelPhysicalStart kernelPhysicalEnd) :
    (∀ region ∈ mmap, ∀ paddr, region.Contains paddr →
        FreeByte kernelPhysicalStart kernelPhysicalEnd entries paddr) ↔
      ∀ entry ∈ entries, entry.type = multibootMemoryAvailable →
        Displaced kernelPhysicalStart kernelPhysicalEnd entry →
        ∀ paddr, NarrowedTo kernelPhysicalStart kernelPhysicalEnd entry paddr →
          FreeByte kernelPhysicalStart kernelPhysicalEnd entries paddr := by
  rw [fillMemoryMap_eq hasMmap walk returns]
  constructor
  · intro onlyFree entry entryMember available _ paddr narrowed
    obtain ⟨region, recorded, inside⟩ :=
      (recordedRegion_contains_iff available).mpr narrowed
    exact onlyFree region
      (List.mem_filterMap.mpr ⟨entry, entryMember, recorded⟩) paddr inside
  · intro displacedFree region regionMember paddr inside
    obtain ⟨entry, entryMember, recorded⟩ :=
      List.mem_filterMap.mp regionMember
    have available : entry.type = multibootMemoryAvailable := by
      by_contra other
      rw [recordedRegion, if_neg other] at recorded
      cases recorded
    have narrowed := (recordedRegion_contains_iff available).mp
      ⟨region, recorded, inside⟩
    by_cases displaced :
        Displaced kernelPhysicalStart kernelPhysicalEnd entry
    · exact displacedFree entry entryMember available displaced paddr narrowed
    · have whole : entry.HoldsKernel kernelPhysicalStart kernelPhysicalEnd ∨
          ∀ byte, entry.Contains byte →
            ¬(kernelPhysicalStart ≤ byte ∧ byte < kernelPhysicalEnd) := by
        by_cases same : entry = holder
        · exact Or.inl (same ▸ holds)
        · refine Or.inr fun byte entryHas kernelHas => ?_
          have apart := disjoint.forall entryMember member same
          obtain ⟨start, finish⟩ := holds
          exact apart byte entryHas ⟨by omega, by omega⟩
      obtain ⟨entryHas, notKernel⟩ :=
        narrowed.inside displaced nonempty whole
      exact ⟨⟨entry, entryMember, available, entryHas⟩, notKernel⟩

end Walk

/-- RAM behind a hole. -/
def farRamEntry : MultibootMmapEntry :=
  { ramEntry with addr := 0x10000000 }

theorem farRamEntry_plain : farRamEntry.Plain where
  size := rfl
  addr := by decide
  len := by decide
  type := by decide

theorem ramEntries_disjoint :
    [ramEntry, farRamEntry].Pairwise MultibootMmapEntry.Disjoint := by
  refine List.pairwise_pair.mpr fun paddr low far => ?_
  simp only [MultibootMmapEntry.Contains, ramEntry, farRamEntry] at low far
  omega

theorem fill_memory_map_free_ram_iff_twoEntries :
    let mmap : List MemoryMap :=
      [⟨0x110000, 0x7DD0000⟩, ⟨0x10000000, 0x7EE0000⟩]
    fillMemoryMap (bufferAt 0x9000
        ([ramEntry, farRamEntry].flatMap MultibootMmapEntry.bytes)) 0x100000
        0x110000 (MultibootInfo.ofEntries 0x9000 [ramEntry, farRamEntry]) 3 =
      some mmap ∧
    ∀ region ∈ mmap, ∀ paddr, region.Contains paddr →
      FreeByte 0x100000 0x110000 [ramEntry, farRamEntry] paddr := by
  intro mmap
  have returns : fillMemoryMap (bufferAt 0x9000
      ([ramEntry, farRamEntry].flatMap MultibootMmapEntry.bytes)) 0x100000
      0x110000 (MultibootInfo.ofEntries 0x9000 [ramEntry, farRamEntry]) 3 =
        some mmap := by
    decide +kernel
  refine ⟨returns, (fill_memory_map_free_ram_iff (by decide)
    (MultibootInfo.ofEntries_walk 0x9000 [ramEntry, farRamEntry]
      (by simp [ramEntry_plain, farRamEntry_plain]) (by decide))
    returns ramEntries_disjoint (by decide) (List.mem_cons_self ..)
    ⟨by decide, by decide⟩).mpr ?_⟩
  -- Neither entry is one that narrowing moves.
  intro entry member _ displaced
  simp only [List.mem_cons, List.not_mem_nil, or_false] at member
  rcases member with rfl | rfl
  · rcases displaced with high | ⟨_, cut⟩
    · exact absurd high (by decide)
    · exact absurd cut (by decide)
  · rcases displaced with high | ⟨⟨start, _⟩, _⟩
    · exact absurd high (by decide)
    · exact absurd start (by decide)

/-- RAM above 4 GiB. -/
def highRamEntry : MultibootMmapEntry :=
  { size := 20
    addr := 0x100000000
    len := 0x40000000
    type := multibootMemoryAvailable }

/-- RAM above 4 GiB is taken for the kernel's region, and addresses at which
there is no memory are recorded. -/
theorem fill_memory_map_records_nothing :
    [ramEntry, highRamEntry].Pairwise MultibootMmapEntry.Disjoint ∧
      ramEntry.HoldsKernel 0x100000 0x110000 ∧
      fillMemoryMap (bufferAt 0x9000
          ([ramEntry, highRamEntry].flatMap MultibootMmapEntry.bytes))
          0x100000 0x110000
          (MultibootInfo.ofEntries 0x9000 [ramEntry, highRamEntry]) 3 =
        some [⟨0x110000, 0x7DD0000⟩, ⟨0x110000, 0x3FEF0000⟩] ∧
      (⟨0x110000, 0x3FEF0000⟩ : MemoryMap).Contains 0x10000000 ∧
      ¬FreeByte 0x100000 0x110000 [ramEntry, highRamEntry] 0x10000000 := by
  refine ⟨?_, ⟨by decide, by decide⟩, by decide +kernel,
    ⟨by decide, by decide⟩, ?_⟩
  · refine List.pairwise_pair.mpr fun paddr low high => ?_
    simp only [MultibootMmapEntry.Contains, ramEntry, highRamEntry] at low high
    omega
  · rintro ⟨⟨entry, member, _, inside⟩, _⟩
    simp only [List.mem_cons, List.not_mem_nil, or_false] at member
    rcases member with rfl | rfl
    · simp [MultibootMmapEntry.Contains, ramEntry] at inside
    · simp [MultibootMmapEntry.Contains, highRamEntry] at inside

/-! ## How long the walk is -/

section Walk

variable {memory : Nat → UInt8} {kernelPhysicalStart kernelPhysicalEnd : Nat}
  {stop entry : Nat} {entries : List MultibootMmapEntry}
  {info : MultibootInfo}

/-- The first entries of a walk, whether they lie in front of its end or
not. -/
def firstMmapEntries (memory : Nat → UInt8) (entry count : Nat) :
    List MultibootMmapEntry :=
  (List.range count).map fun position =>
    mmapEntryAt memory ((nextMmapEntry memory)^[position] entry)

theorem firstMmapEntries_succ (count : Nat) :
    firstMmapEntries memory entry (count + 1) =
      mmapEntryAt memory entry ::
        firstMmapEntries memory (nextMmapEntry memory entry) count := by
  simp [firstMmapEntries, List.range_succ_eq_map, Function.comp_def]

theorem MmapEntries.of_iterate {count : Nat}
    (before : ∀ position < count,
      (nextMmapEntry memory)^[position] entry < stop)
    (past : stop ≤ (nextMmapEntry memory)^[count] entry) :
    MmapEntries memory stop entry (firstMmapEntries memory entry count) := by
  induction count generalizing entry with
  | zero => exact .done past
  | succ count induction =>
      rw [firstMmapEntries_succ]
      refine .entry (before 0 (by omega)) (induction ?_ past)
      intro position early
      exact before (position + 1) (by omega)

/-- A finite walk is the entries in front of its end. -/
theorem MmapEntries.iterate (walk : MmapEntries memory stop entry entries) :
    (∀ position < entries.length,
        (nextMmapEntry memory)^[position] entry < stop) ∧
      stop ≤ (nextMmapEntry memory)^[entries.length] entry ∧
      entries = firstMmapEntries memory entry entries.length := by
  induction walk with
  | done past => exact ⟨by simp, past, rfl⟩
  | entry before _ induction =>
      obtain ⟨early, past, same⟩ := induction
      refine ⟨?_, past, ?_⟩
      · intro position inside
        cases position with
        | zero => exact before
        | succ position => exact early position (by simpa using inside)
      · rw [List.length_cons, firstMmapEntries_succ, ← same]

/-- A walk that comes to entry number `last` has met this many entries, and
the ones it records are a part of what the whole walk records. -/
theorem MmapEntries.first_sublist
    (walk : MmapEntries memory stop entry entries) {last : Nat}
    (visited : (nextMmapEntry memory)^[last] entry < stop)
    (before : ∀ position < last,
      (nextMmapEntry memory)^[position] entry < stop) :
    (firstMmapEntries memory entry (last + 1)).Sublist entries := by
  obtain ⟨_, past, same⟩ := walk.iterate
  have inside : last + 1 ≤ entries.length := by
    by_contra short
    rcases Nat.lt_or_ge entries.length last with early | late
    · exact absurd (before _ early) (Nat.not_lt_of_le past)
    · have equal : entries.length = last := by omega
      rw [equal] at past
      exact absurd visited (Nat.not_lt_of_le past)
  rw [same]
  exact (List.range_sublist.mpr inside).map _

/-- A walk that ends is the entries up to the first address that is not in
front of the end. -/
theorem MmapEntries.of_ends
    (ends : Ends (· < stop) (nextMmapEntry memory) entry) :
    ∃ count, (∀ position < count,
        (nextMmapEntry memory)^[position] entry < stop) ∧
      MmapEntries memory stop entry (firstMmapEntries memory entry count) := by
  classical
  have before : ∀ position < Nat.find ends,
      (nextMmapEntry memory)^[position] entry < stop := by
    intro position early
    by_contra done
    exact Nat.find_min ends early done
  exact ⟨_, before,
    .of_iterate before (Nat.le_of_not_lt (Nat.find_spec ends))⟩

/-- The walk ends with the array `mmap` not overrun exactly when it does not
come back to an entry and records at most 100 of those it comes to. -/
theorem fill_memory_map_bounded_iff :
    (∃ fuel mmap,
        fillMemoryMap memory kernelPhysicalStart kernelPhysicalEnd info fuel =
          some mmap ∧ mmap.length ≤ maxNumMemoryMap) ↔
      (info.HasMmap →
        ∀ last, (∀ position ≤ last,
            (nextMmapEntry memory)^[position] info.mmapAddr <
              info.mmapEnd) →
          (∀ position < last,
              (nextMmapEntry memory)^[position] info.mmapAddr ≠
                (nextMmapEntry memory)^[last] info.mmapAddr) ∧
            ((firstMmapEntries memory info.mmapAddr (last + 1)).filterMap
              (recordedRegion kernelPhysicalStart
                kernelPhysicalEnd)).length ≤ maxNumMemoryMap) := by
  have noReturn : Ends (· < info.mmapEnd) (nextMmapEntry memory)
      info.mmapAddr ↔ _ :=
    ends_iff_no_return (Finset.range info.mmapEnd) fun entry early =>
      Finset.mem_range.mpr early
  constructor
  · rintro ⟨fuel, mmap, returns, short⟩ hasMmap last visited
    rw [fillMemoryMap, if_pos hasMmap] at returns
    obtain ⟨entries, walk, recorded⟩ := fillMemoryMapLoop_entries returns
    refine ⟨noReturn.mp ⟨entries.length, ?_⟩ last visited, ?_⟩
    · exact Nat.not_lt_of_le walk.iterate.2.1
    · have part := walk.first_sublist (visited last (Nat.le_refl _))
        fun position early => visited position (Nat.le_of_lt early)
      rw [recorded, List.nil_append] at short
      exact (part.filterMap _).length_le.trans short
  · intro bounded
    by_cases hasMmap : info.HasMmap
    · obtain ⟨count, before, walk⟩ := MmapEntries.of_ends
        (noReturn.mpr fun last visited => (bounded hasMmap last visited).1)
      refine ⟨_, _, (if_pos hasMmap).trans
        (walk.fill (Nat.lt_succ_self _) []), ?_⟩
      rw [List.nil_append]
      cases count with
      | zero => exact Nat.zero_le _
      | succ last =>
          exact (bounded hasMmap last fun position inside =>
            before position (Nat.lt_succ_of_le inside)).2
    · exact ⟨0, [], if_neg hasMmap, Nat.zero_le _⟩

end Walk

/-- An entry whose size field makes the walk come back to it. -/
def selfEntry : MultibootMmapEntry :=
  { size := 0xFFFFFFFC
    addr := 0
    len := 0
    type := 2 }

/-- The walk does not leave this entry. -/
theorem fill_memory_map_hangs :
    ¬∃ fuel mmap,
      fillMemoryMap (bufferAt 0x9000 selfEntry.bytes) 0x100000 0x110000
        (MultibootInfo.ofEntries 0x9000 [selfEntry]) fuel = some mmap := by
  have loops (fuel : Nat) (stored : List MemoryMap) :
      fillMemoryMapLoop (bufferAt 0x9000 selfEntry.bytes) 0x100000 0x110000
        0x9018 fuel 0x9000 stored = none := by
    induction fuel generalizing stored with
    | zero => rfl
    | succ fuel induction =>
        have next : nextMmapEntry (bufferAt 0x9000 selfEntry.bytes) 0x9000 =
            0x9000 := by decide
        rw [fillMemoryMapLoop, if_pos (by decide), next]
        exact induction _
  rintro ⟨fuel, mmap, returns⟩
  have hasMmap : (MultibootInfo.ofEntries 0x9000 [selfEntry]).HasMmap := by
    decide
  rw [fillMemoryMap, if_pos hasMmap] at returns
  exact Option.some_ne_none mmap (returns.symm.trans (loops fuel []))

/-! ## Page alignment -/

/-- The page of an address lies inside a region. -/
def MemoryMap.HoldsPageOf (region : MemoryMap) (paddr : Nat) : Prop :=
  region.addr ≤ paddr / fourKb * fourKb ∧
    paddr / fourKb * fourKb + fourKb ≤ region.addr + region.len

/-- A region is the whole pages of another one and starts at the first page
boundary of it. -/
structure MemoryMap.WholePagesOf (aligned region : MemoryMap) : Prop where
  start : aligned.addr = (region.addr + 4095) / fourKb * fourKb
  pages : ∀ paddr, aligned.Contains paddr ↔ region.HoldsPageOf paddr

theorem alignRegion_reaching {region : MemoryMap}
    (small : region.addr + region.len < 4294967296)
    (reaches : (region.addr + 4095) / fourKb * fourKb ≤
      region.addr + region.len) :
    alignRegion region =
      ⟨(region.addr + 4095) / fourKb * fourKb,
        (region.addr + region.len) / fourKb * fourKb -
          (region.addr + 4095) / fourKb * fourKb⟩ := by
  have start : alignUp region.addr fourKb =
      (region.addr + 4095) / fourKb * fourKb := by
    simp only [alignUp, fourKb, w32] at *
    split_ifs <;> omega
  have added : sub32 ((region.addr + 4095) / fourKb * fourKb) region.addr =
      (region.addr + 4095) / fourKb * fourKb - region.addr :=
    sub32_of_le (by simp only [fourKb]; omega)
  simp only [alignRegion, start, added, MemoryMap.mk.injEq, true_and]
  rw [sub32_of_le (by omega)]
  simp only [alignDown, fourKb] at *
  omega

/-- A region that ends in front of its first page boundary: the new length is
almost 4 GiB. -/
theorem alignRegion_short {region : MemoryMap}
    (small : region.addr + region.len < 4294967296)
    (short : region.addr + region.len <
      (region.addr + 4095) / fourKb * fourKb) :
    alignRegion region =
      ⟨w32 ((region.addr + 4095) / fourKb * fourKb), 4294963200⟩ := by
  have start : alignUp region.addr fourKb =
      w32 ((region.addr + 4095) / fourKb * fourKb) := by
    simp only [alignUp, fourKb, w32] at *
    split_ifs <;> omega
  have added : sub32 (w32 ((region.addr + 4095) / fourKb * fourKb))
      region.addr =
        (region.addr + 4095) / fourKb * fourKb - region.addr := by
    by_cases inside : (region.addr + 4095) / fourKb * fourKb < 4294967296
    · rw [w32_of_lt inside, sub32_of_le (by simp only [fourKb]; omega)]
    · -- The boundary is the end of the address space and wraps to zero.
      have wraps : (region.addr + 4095) / fourKb * fourKb = 4294967296 := by
        simp only [fourKb] at *
        omega
      have positive : 0 < region.addr := by
        simp only [fourKb] at wraps
        omega
      rw [wraps]
      exact sub32_of_lt positive
  simp only [alignRegion, start, added, MemoryMap.mk.injEq, true_and]
  rw [sub32_of_lt (by omega)]
  simp only [alignDown, fourKb] at *
  omega

theorem alignRegion_wholePages_iff {region : MemoryMap}
    (small : region.addr + region.len < 4294967296) :
    (alignRegion region).WholePagesOf region ↔
      (region.addr + 4095) / fourKb * fourKb ≤ region.addr + region.len := by
  constructor
  · intro whole
    by_contra notReached
    have short := Nat.lt_of_not_le notReached
    have start := whole.start
    have first := whole.pages (alignRegion region).addr
    rw [alignRegion_short small short] at start first
    have held := first.mp ⟨Nat.le_refl _, by simp⟩
    unfold MemoryMap.HoldsPageOf at held
    simp only [fourKb] at *
    omega
  · intro reaches
    rw [alignRegion_reaching small reaches]
    refine ⟨rfl, fun paddr => ?_⟩
    simp only [MemoryMap.Contains, MemoryMap.HoldsPageOf, fourKb] at *
    omega

/-- Rounding a region to whole pages is right exactly when the region reaches
the first page boundary at or behind its start. -/
theorem align_region_exact_iff {mmap : List MemoryMap} {index : Nat}
    {region : MemoryMap} (recorded : mmap[index]? = some region)
    (small : region.addr + region.len < 4294967296) :
    (∃ aligned, (alignRegions mmap)[index]? = some aligned ∧
        aligned.WholePagesOf region) ↔
      (region.addr + 4095) / fourKb * fourKb ≤ region.addr + region.len := by
  rw [← alignRegion_wholePages_iff small, alignRegions, List.getElem?_map,
    recorded]
  simp

theorem align_region_exact_iff_twoPages :
    ∃ aligned, (alignRegions [⟨0x110800, 0x2800⟩])[0]? = some aligned ∧
      aligned.WholePagesOf ⟨0x110800, 0x2800⟩ :=
  (align_region_exact_iff rfl (by decide)).mpr (by decide)

/-- Sixteen bytes inside a page become almost 4 GiB. -/
theorem alignRegion_overflows :
    (alignRegions [⟨0x110001, 16⟩])[0]? = some ⟨0x111000, 0xFFFFF000⟩ ∧
      ¬MemoryMap.WholePagesOf ⟨0x111000, 0xFFFFF000⟩ ⟨0x110001, 16⟩ := by
  refine ⟨by decide, fun whole => ?_⟩
  have first := (whole.pages 0x111000).mp ⟨by decide, by decide⟩
  exact absurd first.2 (by decide)

end Newbos
