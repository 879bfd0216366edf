import Newbos.Library.Word

/-!
# Process records

The records that `process_create` fills in and that the scheduler reads.
Pointers are addresses, and a null pointer is address 0.
-/

namespace Newbos

/-- `struct _registers`. -/
structure Registers where
  eax : Nat
  ebx : Nat
  ecx : Nat
  edx : Nat
  ebp : Nat
  esi : Nat
  edi : Nat
  ss : Nat
  esp : Nat
  eflags : Nat
  cs : Nat
  eip : Nat
  deriving DecidableEq, Repr

/-- `struct paddr_ele`. -/
structure PaddrEle where
  paddr : Nat
  count : Nat
  next : Nat
  deriving DecidableEq, Repr

/-- `struct paddr_list`. -/
structure PaddrList where
  start : Nat
  stop : Nat
  deriving DecidableEq, Repr

/-- `struct process`. -/
structure Process where
  id : Nat
  parentId : Nat
  pdt : Nat
  pdtPaddr : Nat
  current : Registers
  userMode : Registers
  kernelStackStartVaddr : Nat
  stackStartVaddr : Nat
  codeStartVaddr : Nat
  codePaddrs : PaddrList
  stackPaddrs : PaddrList
  kernelStackPaddrs : PaddrList
  deriving DecidableEq, Repr

/-- The members in the order of their words in memory. -/
def Registers.members (registers : Registers) : List Nat :=
  [registers.eax, registers.ebx, registers.ecx, registers.edx, registers.ebp,
    registers.esi, registers.edi, registers.ss, registers.esp,
    registers.eflags, registers.cs, registers.eip]

def Process.members (process : Process) : List Nat :=
  [process.id, process.parentId, process.pdt, process.pdtPaddr] ++
    process.current.members ++ process.userMode.members ++
    [process.kernelStackStartVaddr, process.stackStartVaddr,
      process.codeStartVaddr, process.codePaddrs.start,
      process.codePaddrs.stop, process.stackPaddrs.start,
      process.stackPaddrs.stop, process.kernelStackPaddrs.start,
      process.kernelStackPaddrs.stop]

end Newbos
