import Mathlib.Tactic.IntervalCases
import Newbos.Interrupts.Transparency
import Newbos.Library.Table

/-!
# The global descriptor table

`gdt_init` describes two rings of flat segments and the task state segment.
The processor takes the entries apart when a selector is loaded.
-/

namespace Newbos

/-! ## The code -/

/-- `struct gdt_entry`. -/
structure GdtEntry where
  limitLow : BitVec 16
  baseLow : BitVec 16
  baseMid : BitVec 8
  access : BitVec 8
  granularity : BitVec 8
  baseHigh : BitVec 8
  deriving DecidableEq, Repr

/-- `sizeof(struct gdt_entry)`. -/
abbrev sizeofGdtEntry : Nat := 8

abbrev gdtNumEntries : Nat := 6

/-- `sizeof(struct tss)`. -/
abbrev sizeofTss : Nat := 104

abbrev segmentBase : BitVec 32 := 0#32

abbrev segmentLimit : BitVec 32 := 0xFFFFF#32

abbrev pl0 : BitVec 8 := 0#8

abbrev pl3 : BitVec 8 := 3#8

abbrev codeRxType : BitVec 8 := 0x0A#8

abbrev dataRwType : BitVec 8 := 0x02#8

abbrev tssSegsel : BitVec 16 := 0x28#16

namespace GdtEntry

/-- The two words of a packed entry. -/
def words (entry : GdtEntry) : BitVec 32 × BitVec 32 :=
  (entry.baseLow ++ entry.limitLow,
    entry.baseHigh ++ entry.granularity ++ entry.access ++ entry.baseMid)

def ofWords (words : BitVec 32 × BitVec 32) : GdtEntry where
  limitLow := words.1.extractLsb' 0 16
  baseLow := words.1.extractLsb' 16 16
  baseMid := words.2.extractLsb' 0 8
  access := words.2.extractLsb' 8 8
  granularity := words.2.extractLsb' 16 8
  baseHigh := words.2.extractLsb' 24 8

/-- The assignments of `gdt_set_gate`.  The flags are added to those that are
there. -/
def setGate (plevel type : BitVec 8) (entry : GdtEntry) : GdtEntry :=
  { entry with
    baseLow := (segmentBase &&& 0xFFFF#32).setWidth 16
    baseMid := ((segmentBase >>> 16) &&& 0xFF#32).setWidth 8
    baseHigh := ((segmentBase >>> 24) &&& 0xFF#32).setWidth 8
    limitLow := (segmentLimit &&& 0xFFFF#32).setWidth 16
    granularity := entry.granularity |||
      (0x01#8 <<< 7 ||| 0x01#8 <<< 6 ||| 0x0F#8)
    access := 0x01#8 <<< 7 ||| (plevel &&& 0x03#8) <<< 5 ||| 0x01#8 <<< 4 |||
      (type &&& 0x0F#8) }

/-- The assignments of `gdt_create_tss_entry`. -/
def createTssEntry (tssVaddr : BitVec 32) : GdtEntry where
  baseLow := (tssVaddr &&& 0xFFFF#32).setWidth 16
  baseMid := ((tssVaddr >>> 16) &&& 0xFF#32).setWidth 8
  baseHigh := ((tssVaddr >>> 24) &&& 0xFF#32).setWidth 8
  limitLow := BitVec.ofNat 16 (sizeofTss - 1)
  access := 0x01#8 <<< 7 ||| 0x01#8 <<< 3 ||| 0x01#8
  granularity := 0#8

end GdtEntry

/-- `gdt_set_gate`. -/
def gdtSetGate (gdtEntries : BitVec 32) (num : Nat) (plevel type : BitVec 8)
    (mem : ByteMemory) : ByteMemory :=
  let entry := GdtEntry.ofWords (readSlot mem gdtEntries num)
  writeSlot gdtEntries num (entry.setGate plevel type).words mem

/-- `gdt_create_tss_entry`. -/
def gdtCreateTssEntry (gdtEntries : BitVec 32) (n : Nat)
    (tssVaddr : BitVec 32) (mem : ByteMemory) : ByteMemory :=
  writeSlot gdtEntries n (GdtEntry.createTssEntry tssVaddr).words mem

/-- The memory at the call of `gdt_flush`; `gdtPtr` is the address of the
local variable. -/
def gdtMemory (gdtEntries gdtPtr tssVaddr : BitVec 32) (mem : ByteMemory) :
    ByteMemory :=
  storeTable gdtPtr (BitVec.ofNat 16 (sizeofGdtEntry * gdtNumEntries))
      gdtEntries mem
    |> gdtSetGate gdtEntries 0 0 0
    |> gdtSetGate gdtEntries 1 pl0 codeRxType
    |> gdtSetGate gdtEntries 2 pl0 dataRwType
    |> gdtSetGate gdtEntries 3 pl3 codeRxType
    |> gdtSetGate gdtEntries 4 pl3 dataRwType
    |> gdtCreateTssEntry gdtEntries 5 tssVaddr

/-! ## The processor -/

/-- A descriptor, as the processor takes it apart. -/
structure Descriptor where
  base : BitVec 32
  limit : BitVec 20
  type : BitVec 4
  isSegment : Bool
  privilege : BitVec 2
  present : Bool
  wide : Bool
  pages : Bool
  deriving DecidableEq, Repr

def Descriptor.ofWords (words : BitVec 32 × BitVec 32) : Descriptor where
  base := words.2.extractLsb' 24 8 ++ words.2.extractLsb' 0 8 ++
    words.1.extractLsb' 16 16
  limit := words.2.extractLsb' 16 4 ++ words.1.extractLsb' 0 16
  type := words.2.extractLsb' 8 4
  isSegment := words.2.getLsbD 12
  privilege := words.2.extractLsb' 13 2
  present := words.2.getLsbD 15
  wide := words.2.getLsbD 22
  pages := words.2.getLsbD 23

/-- The number of the entry that a selector names. -/
def selectorIndex (selector : BitVec 16) : Nat :=
  (selector >>> 3).toNat

/-- The descriptor of a selector.  The first entry is never used, and there is
no local table. -/
def gdtrDescriptor (gdtr : TableRegister) (mem : ByteMemory)
    (selector : BitVec 16) : Option Descriptor :=
  let index := selectorIndex selector
  if index ≠ 0 ∧ selector.getLsbD 2 = false ∧
      sizeofGdtEntry * index + 7 ≤ gdtr.limit.toNat then
    some (Descriptor.ofWords (readSlot mem gdtr.base index))
  else none

/-- The task register: where the task state segment is. -/
structure TaskRegister where
  base : BitVec 32
  limit : BitVec 20
  deriving DecidableEq, Repr

/-- `ltr` takes the descriptor of an available task state segment, and marks
it busy in the table. -/
def loadTaskRegister (gdtr : TableRegister) (selector : BitVec 16)
    (mem : ByteMemory) : Option (TaskRegister × ByteMemory) :=
  (gdtrDescriptor gdtr mem selector).bind fun descriptor =>
    if descriptor.present = true ∧ descriptor.isSegment = false ∧
        descriptor.type = 0x9#4 then
      let index := selectorIndex selector
      let words := readSlot mem gdtr.base index
      some (⟨descriptor.base, descriptor.limit⟩,
        writeSlot gdtr.base index (words.1, words.2 ||| 0x200#32) mem)
    else none

/-- The segment registers that `gdt_flush` loads. -/
def gdtFlush (cpu : Cpu) : Cpu :=
  { cpu with
    cs := 0x08#16
    ds := 0x10#16
    es := 0x10#16
    fs := 0x10#16
    gs := 0x10#16
    ss := 0x10#16 }

/-- `gdt_init`, with the two registers that it loads. -/
def gdtInit (gdtEntries gdtPtr tssVaddr : BitVec 32) (cpu : Cpu) :
    Option (TableRegister × TaskRegister × Cpu) :=
  let mem := gdtMemory gdtEntries gdtPtr tssVaddr cpu.mem
  let gdtr := loadTable gdtPtr mem
  (loadTaskRegister gdtr tssSegsel mem).map fun (task, mem) =>
    (gdtr, task, { gdtFlush cpu with mem := mem })

/-! ## The entries -/

/-- A segment of the whole address space. -/
def flatSegment (type : BitVec 4) (privilege : BitVec 2) : Descriptor where
  base := 0#32
  limit := 0xFFFFF#20
  type := type
  isSegment := true
  privilege := privilege
  present := true
  wide := true
  pages := true

def tssDescriptor (tssVaddr : BitVec 32) (type : BitVec 4) : Descriptor where
  base := tssVaddr
  limit := 103#20
  type := type
  isSegment := false
  privilege := 0#2
  present := true
  wide := false
  pages := false

/-- What each entry should be. -/
def segmentDescriptor (tssVaddr : BitVec 32) : Nat → Option Descriptor
  | 1 => some (flatSegment 0xA#4 0#2)
  | 2 => some (flatSegment 0x2#4 0#2)
  | 3 => some (flatSegment 0xA#4 3#2)
  | 4 => some (flatSegment 0x2#4 3#2)
  | 5 => some (tssDescriptor tssVaddr 0xB#4)
  | _ => none

theorem segmentDescriptor_outside {tssVaddr : BitVec 32} {index : Nat}
    (outside : ¬(index ≠ 0 ∧ index < 6)) :
    segmentDescriptor tssVaddr index = none := by
  match index with
  | 0 => rfl
  | 1 | 2 | 3 | 4 | 5 => exact absurd ⟨by decide, by decide⟩ outside
  | _ + 6 => rfl

/-- The parts of a descriptor from the fields of the entry. -/
def GdtEntry.descriptor (entry : GdtEntry) : Descriptor where
  base := entry.baseHigh ++ entry.baseMid ++ entry.baseLow
  limit := entry.granularity.extractLsb' 0 4 ++ entry.limitLow
  type := entry.access.extractLsb' 0 4
  isSegment := entry.access.getLsbD 4
  privilege := entry.access.extractLsb' 5 2
  present := entry.access.getLsbD 7
  wide := entry.granularity.getLsbD 6
  pages := entry.granularity.getLsbD 7

section Bits

theorem extractLsb'_nested {width start len inner innerLen : Nat}
    (value : BitVec width) (fits : inner + innerLen ≤ len) :
    (value.extractLsb' start len).extractLsb' inner innerLen =
      value.extractLsb' (start + inner) innerLen := by
  ext i small
  have inside : inner + i < len := by omega
  simp [inside, Nat.add_assoc]

theorem setWidth_mask16 (value : BitVec 32) :
    (value &&& 0xFFFF#32).setWidth 16 = value.extractLsb' 0 16 := by
  rw [BitVec.setWidth_and, ← BitVec.setWidth_eq_extractLsb' (by decide)]
  exact BitVec.and_allOnes

theorem setWidth_mask8 (value : BitVec 32) (shift : Nat) :
    ((value >>> shift) &&& 0xFF#32).setWidth 8 =
      value.extractLsb' shift 8 := by
  rw [BitVec.setWidth_and, BitVec.setWidth_ushiftRight_eq_extractLsb]
  exact BitVec.and_allOnes

end Bits

namespace GdtEntry

variable (entry : GdtEntry)

theorem ofWords_words : ofWords entry.words = entry := by
  obtain ⟨limitLow, baseLow, baseMid, access, granularity, baseHigh⟩ := entry
  simp only [words, ofWords, mk.injEq]
  refine ⟨?_, ?_, ?_, ?_, ?_, ?_⟩
  · exact BitVec.extractLsb'_append_eq_right
  · exact BitVec.extractLsb'_append_eq_left
  · exact BitVec.extractLsb'_append_eq_right
  · rw [BitVec.extractLsb'_append_eq_of_le (by decide)]
    exact BitVec.extractLsb'_append_eq_right
  · rw [BitVec.extractLsb'_append_eq_of_le (by decide),
      BitVec.extractLsb'_append_eq_of_le (by decide)]
    exact BitVec.extractLsb'_append_eq_right
  · rw [BitVec.extractLsb'_append_eq_of_le (by decide),
      BitVec.extractLsb'_append_eq_of_le (by decide)]
    exact BitVec.extractLsb'_append_eq_left

theorem descriptor_ofWords (words : BitVec 32 × BitVec 32) :
    Descriptor.ofWords words = (ofWords words).descriptor := by
  simp [Descriptor.ofWords, ofWords, descriptor, extractLsb'_nested]

/-- The processor finds the fields that the code has stored. -/
theorem descriptor_words : Descriptor.ofWords entry.words =
    entry.descriptor := by
  rw [descriptor_ofWords, ofWords_words]

theorem createTssEntry_descriptor (tssVaddr : BitVec 32) :
    (createTssEntry tssVaddr).descriptor = tssDescriptor tssVaddr 0x9#4 := by
  simp only [createTssEntry, descriptor, tssDescriptor, setWidth_mask16,
    setWidth_mask8, Descriptor.mk.injEq]
  refine ⟨?_, rfl, rfl, rfl, rfl, rfl, rfl, rfl⟩
  rw [BitVec.extractLsb'_append_extractLsb'_eq_extractLsb' (by decide),
    BitVec.extractLsb'_append_extractLsb'_eq_extractLsb' (by decide)]
  exact BitVec.extractLsb'_eq_self

theorem granularity_flags :
    ∀ value : BitVec 8,
      let flags := value ||| (0x01#8 <<< 7 ||| 0x01#8 <<< 6 ||| 0x0F#8)
      flags.extractLsb' 0 4 = 0xF#4 ∧ flags.getLsbD 6 = true ∧
        flags.getLsbD 7 = true := by
  decide

theorem access_fields (plevel type : BitVec 8) :
    let access := 0x01#8 <<< 7 ||| (plevel &&& 0x03#8) <<< 5 |||
      0x01#8 <<< 4 ||| (type &&& 0x0F#8)
    access.extractLsb' 0 4 = type.extractLsb' 0 4 ∧
      access.getLsbD 4 = true ∧
      access.extractLsb' 5 2 = plevel.extractLsb' 0 2 ∧
      access.getLsbD 7 = true := by
  have low : ∀ type : BitVec 8, (type &&& 0x0F#8).extractLsb' 5 2 = 0#2 := by
    decide
  have high : ∀ plevel : BitVec 8,
      let upper := 0x01#8 <<< 7 ||| (plevel &&& 0x03#8) <<< 5 |||
        0x01#8 <<< 4
      upper.extractLsb' 0 4 = 0#4 ∧ upper.getLsbD 4 = true ∧
        upper.extractLsb' 5 2 = plevel.extractLsb' 0 2 ∧
        upper.getLsbD 7 = true := by
    decide
  obtain ⟨noType, segment, privilege, present⟩ := high plevel
  refine ⟨?_, ?_, ?_, ?_⟩
  · rw [BitVec.extractLsb'_or, BitVec.extractLsb'_and, noType,
      BitVec.zero_or]
    exact BitVec.and_allOnes
  · rw [BitVec.getLsbD_or, segment, Bool.true_or]
  · rw [BitVec.extractLsb'_or, low, privilege, BitVec.or_zero]
  · rw [BitVec.getLsbD_or, present, Bool.true_or]

theorem setGate_descriptor (plevel type : BitVec 8) :
    (entry.setGate plevel type).descriptor =
      flatSegment (type.extractLsb' 0 4) (plevel.extractLsb' 0 2) := by
  obtain ⟨limit, wide, pages⟩ := granularity_flags entry.granularity
  obtain ⟨kind, segment, privilege, present⟩ := access_fields plevel type
  simp only [setGate, descriptor, flatSegment, limit, wide, pages, kind,
    segment, privilege, present, Descriptor.mk.injEq]
  exact ⟨rfl, rfl, trivial, trivial, trivial, trivial, trivial, trivial⟩

end GdtEntry

/-! ## The table -/

section Table

variable {gdtEntries gdtPtr tssVaddr : BitVec 32} {num index : Nat}
  {plevel type : BitVec 8} {mem : ByteMemory}

/-- The descriptor of an entry. -/
def tableDescriptor (table : BitVec 32) (index : Nat) (mem : ByteMemory) :
    Descriptor :=
  Descriptor.ofWords (readSlot mem table index)

theorem tableDescriptor_gdtSetGate (numSmall : num < 6) (small : index < 6) :
    tableDescriptor gdtEntries index
        (gdtSetGate gdtEntries num plevel type mem) =
      if index = num then
        flatSegment (type.extractLsb' 0 4) (plevel.extractLsb' 0 2)
      else tableDescriptor gdtEntries index mem := by
  rw [tableDescriptor, gdtSetGate]
  by_cases here : index = num
  · subst here
    rw [readSlot_writeSlot, if_pos rfl, GdtEntry.descriptor_words,
      GdtEntry.setGate_descriptor]
  · rw [readSlot_writeSlot_other (by omega) (by omega) here, if_neg here]
    rfl

theorem tableDescriptor_gdtMemory (notNull : index ≠ 0) (small : index < 6) :
    some (tableDescriptor gdtEntries index
        (gdtMemory gdtEntries gdtPtr tssVaddr mem)) =
      if index = 5 then some (tssDescriptor tssVaddr 0x9#4)
      else segmentDescriptor tssVaddr index := by
  rw [gdtMemory]
  by_cases last : index = 5
  · subst last
    rw [tableDescriptor, gdtCreateTssEntry, readSlot_writeSlot, if_pos rfl,
      GdtEntry.descriptor_words, GdtEntry.createTssEntry_descriptor]
  · have others (mem : ByteMemory) :
        tableDescriptor gdtEntries index
          (gdtCreateTssEntry gdtEntries 5 tssVaddr mem) =
            tableDescriptor gdtEntries index mem := by
      rw [tableDescriptor, gdtCreateTssEntry,
        readSlot_writeSlot_other (by omega) (by omega) last]
      rfl
    rw [others, if_neg last,
      tableDescriptor_gdtSetGate (by decide) small,
      tableDescriptor_gdtSetGate (by decide) small,
      tableDescriptor_gdtSetGate (by decide) small,
      tableDescriptor_gdtSetGate (by decide) small]
    interval_cases index
    · exact absurd rfl notNull
    · rfl
    · rfl
    · rfl
    · rfl
    · exact absurd rfl last

theorem gdtSetGate_outside (numSmall : num < 6) {offset : BitVec 32}
    (outside : 48 ≤ offset.toNat) :
    gdtSetGate gdtEntries num plevel type mem (gdtEntries + offset) =
      mem (gdtEntries + offset) :=
  writeSlot_outside numSmall (by decide) outside

theorem gdtMemory_outside {offset : BitVec 32}
    (outside : 48 ≤ offset.toNat) :
    gdtMemory gdtEntries gdtPtr tssVaddr mem (gdtEntries + offset) =
      storeTable gdtPtr 48#16 gdtEntries mem (gdtEntries + offset) := by
  rw [gdtMemory, gdtCreateTssEntry,
    writeSlot_outside (show 5 < 6 by decide) (by decide) outside,
    gdtSetGate_outside (by decide) outside,
    gdtSetGate_outside (by decide) outside,
    gdtSetGate_outside (by decide) outside,
    gdtSetGate_outside (by decide) outside,
    gdtSetGate_outside (by decide) outside]
  rfl

/-- The pointer on the stack lies outside of the table. -/
structure GdtPlaced (gdtEntries gdtPtr : BitVec 32) : Prop where
  entries : gdtEntries.toNat + 48 ≤ 4294967296
  ptr : gdtPtr.toNat + 6 ≤ 4294967296
  apart : gdtPtr.toNat + 6 ≤ gdtEntries.toNat ∨
    gdtEntries.toNat + 48 ≤ gdtPtr.toNat

theorem loadTable_gdtMemory (placed : GdtPlaced gdtEntries gdtPtr) :
    loadTable gdtPtr (gdtMemory gdtEntries gdtPtr tssVaddr mem) =
      ⟨48#16, gdtEntries⟩ := by
  have entries := placed.entries
  have ptr := placed.ptr
  have apart := placed.apart
  apply loadTable_storeTable
  intro offset inside
  have place : (gdtPtr + offset).toNat = gdtPtr.toNat + offset.toNat := by
    rw [BitVec.toNat_add]
    omega
  have beyond : 48 ≤ (gdtPtr + offset - gdtEntries).toNat := by
    rw [BitVec.toNat_sub, place]
    omega
  have address : gdtEntries + (gdtPtr + offset - gdtEntries) =
      gdtPtr + offset := by
    rw [BitVec.add_comm, BitVec.sub_add_cancel]
  rw [← address]
  exact gdtMemory_outside beyond

/-- `ltr` changes the type of the descriptor, and nothing else in it. -/
theorem Descriptor.ofWords_busy (words : BitVec 32 × BitVec 32) :
    Descriptor.ofWords (words.1, words.2 ||| 0x200#32) =
      { Descriptor.ofWords words with
        type := (Descriptor.ofWords words).type ||| 0x2#4 } := by
  simp [Descriptor.ofWords, BitVec.extractLsb'_or]

theorem gdtrDescriptor_table (selector : BitVec 16) :
    gdtrDescriptor ⟨48#16, gdtEntries⟩ mem selector =
      if selectorIndex selector ≠ 0 ∧ selector.getLsbD 2 = false ∧
          selectorIndex selector < 6 then
        some (tableDescriptor gdtEntries (selectorIndex selector) mem)
      else none := by
  have range : sizeofGdtEntry * selectorIndex selector + 7 ≤ (48#16).toNat ↔
      selectorIndex selector < 6 := by
    have limit : (48#16).toNat = 48 := rfl
    rw [limit, sizeofGdtEntry]
    omega
  simp only [gdtrDescriptor, range]
  rfl

/-- The memory after `tss_load_and_set`. -/
def gdtLoaded (gdtEntries gdtPtr tssVaddr : BitVec 32) (mem : ByteMemory) :
    ByteMemory :=
  let mem := gdtMemory gdtEntries gdtPtr tssVaddr mem
  let words := readSlot mem gdtEntries 5
  writeSlot gdtEntries 5 (words.1, words.2 ||| 0x200#32) mem

theorem tableDescriptor_tss :
    tableDescriptor gdtEntries 5
        (gdtMemory gdtEntries gdtPtr tssVaddr mem) =
      tssDescriptor tssVaddr 0x9#4 :=
  Option.some.inj (tableDescriptor_gdtMemory (by decide) (by decide))

theorem loadTaskRegister_gdtMemory :
    loadTaskRegister ⟨48#16, gdtEntries⟩ tssSegsel
        (gdtMemory gdtEntries gdtPtr tssVaddr mem) =
      some (⟨tssVaddr, 103#20⟩,
        gdtLoaded gdtEntries gdtPtr tssVaddr mem) := by
  have index : selectorIndex tssSegsel = 5 := rfl
  rw [loadTaskRegister, gdtrDescriptor_table, index, if_pos (by decide),
    Option.bind_some, tableDescriptor_tss]
  rfl

theorem tableDescriptor_gdtLoaded (notNull : index ≠ 0) (small : index < 6) :
    some (tableDescriptor gdtEntries index
        (gdtLoaded gdtEntries gdtPtr tssVaddr mem)) =
      segmentDescriptor tssVaddr index := by
  by_cases last : index = 5
  · subst last
    have type : (0x9#4 ||| 0x2#4 : BitVec 4) = 0xB#4 := by decide
    have marked := Descriptor.ofWords_busy
      (readSlot (gdtMemory gdtEntries gdtPtr tssVaddr mem) gdtEntries 5)
    have before : Descriptor.ofWords
        (readSlot (gdtMemory gdtEntries gdtPtr tssVaddr mem) gdtEntries 5) =
          tssDescriptor tssVaddr 0x9#4 := tableDescriptor_tss
    rw [tableDescriptor, gdtLoaded, readSlot_writeSlot, marked, before]
    simp only [tssDescriptor, type, segmentDescriptor]
  · have kept : tableDescriptor gdtEntries index
        (gdtLoaded gdtEntries gdtPtr tssVaddr mem) =
          tableDescriptor gdtEntries index
            (gdtMemory gdtEntries gdtPtr tssVaddr mem) := by
      rw [tableDescriptor, gdtLoaded,
        readSlot_writeSlot_other (by omega) (by omega) last]
      rfl
    rw [kept, tableDescriptor_gdtMemory notNull small, if_neg last]

theorem gdtLoaded_outside {address : BitVec 32}
    (outside : 48 ≤ (address - gdtEntries).toNat)
    (notPtr : 6 ≤ (address - gdtPtr).toNat) :
    gdtLoaded gdtEntries gdtPtr tssVaddr mem address = mem address := by
  have place : gdtEntries + (address - gdtEntries) = address := by
    rw [BitVec.add_comm, BitVec.sub_add_cancel]
  rw [← place, gdtLoaded,
    writeSlot_outside (show 5 < 6 by decide) (by decide) outside,
    gdtMemory_outside outside, place, storeTable_outside notPtr]

theorem gdtInit_eq (placed : GdtPlaced gdtEntries gdtPtr) (cpu : Cpu) :
    gdtInit gdtEntries gdtPtr tssVaddr cpu =
      some (⟨48#16, gdtEntries⟩, ⟨tssVaddr, 103#20⟩,
        { gdtFlush cpu with
          mem := gdtLoaded gdtEntries gdtPtr tssVaddr cpu.mem }) := by
  simp only [gdtInit, loadTable_gdtMemory placed, loadTaskRegister_gdtMemory]
  rfl

theorem gdtInit_some (placed : GdtPlaced gdtEntries gdtPtr) {start after : Cpu}
    {gdtr : TableRegister} {task : TaskRegister}
    (booted : gdtInit gdtEntries gdtPtr tssVaddr start =
      some (gdtr, task, after)) :
    gdtr = ⟨48#16, gdtEntries⟩ ∧ task = ⟨tssVaddr, 103#20⟩ ∧
      after.mem = gdtLoaded gdtEntries gdtPtr tssVaddr start.mem := by
  rw [gdtInit_eq placed] at booted
  cases booted
  exact ⟨rfl, rfl, rfl⟩

theorem gdtrDescriptor_gdtLoaded {later : ByteMemory}
    (same : SameTable gdtEntries 6
      (gdtLoaded gdtEntries gdtPtr tssVaddr mem) later)
    (selector : BitVec 16) :
    gdtrDescriptor ⟨48#16, gdtEntries⟩ later selector =
      if selector.getLsbD 2 then none
      else segmentDescriptor tssVaddr (selectorIndex selector) := by
  rw [gdtrDescriptor_table]
  by_cases isLocal : selector.getLsbD 2 = true
  · simp [isLocal]
  · by_cases inTable :
        selectorIndex selector ≠ 0 ∧ selectorIndex selector < 6
    · have kept := same.readSlot inTable.2 (by decide)
      rw [if_pos ⟨inTable.1, by simpa using isLocal, inTable.2⟩,
        if_neg isLocal, tableDescriptor, kept]
      exact tableDescriptor_gdtLoaded inTable.1 inTable.2
    · rw [if_neg fun ⟨notNull, _, small⟩ => inTable ⟨notNull, small⟩,
        if_neg isLocal]
      exact (segmentDescriptor_outside inTable).symm

end Table

/-- `gdt_init` loads a table in which every selector names the segment that it
should, whatever the memory held before.  It writes the table and its local
variable only. -/
theorem gdt_init_installs {gdtEntries gdtPtr : BitVec 32}
    (placed : GdtPlaced gdtEntries gdtPtr) (tssVaddr : BitVec 32)
    (cpu : Cpu) :
    ∃ after,
      gdtInit gdtEntries gdtPtr tssVaddr cpu =
        some (⟨48#16, gdtEntries⟩, ⟨tssVaddr, 103#20⟩, after) ∧
      (∀ later, SameTable gdtEntries 6 after.mem later →
        ∀ selector,
          gdtrDescriptor ⟨48#16, gdtEntries⟩ later selector =
            if selector.getLsbD 2 then none
            else segmentDescriptor tssVaddr (selectorIndex selector)) ∧
      ∀ address, 48 ≤ (address - gdtEntries).toNat →
        6 ≤ (address - gdtPtr).toNat →
        after.mem address = cpu.mem address := by
  refine ⟨_, gdtInit_eq placed cpu, ?_, ?_⟩
  · intro later same selector
    exact gdtrDescriptor_gdtLoaded same selector
  · intro address outside notPtr
    exact gdtLoaded_outside outside notPtr

theorem gdtPlaced_oneMib : GdtPlaced 0x100000#32 0x10A000#32 where
  entries := by decide
  ptr := by decide
  apart := by decide

theorem gdt_init_installs_oneMib :
    ∃ after,
      gdtInit 0x100000#32 0x10A000#32 0x100030#32 quietCpu =
        some (⟨48#16, 0x100000#32⟩, ⟨0x100030#32, 103#20⟩, after) ∧
      gdtrDescriptor ⟨48#16, 0x100000#32⟩ after.mem 0x23#16 =
        some (flatSegment 0x2#4 3#2) := by
  obtain ⟨after, loaded, names, _⟩ :=
    gdt_init_installs gdtPlaced_oneMib 0x100030#32 quietCpu
  refine ⟨after, loaded, ?_⟩
  rw [names after.mem (fun _ _ => rfl)]
  rfl

end Newbos
