import Mathlib.Data.List.Find
import Mathlib.Data.List.FinRange
import Mathlib.Data.Fintype.Basic
import Mathlib.Logic.Function.Basic

/-!
# The interrupt controllers

`init_irq` programs two 8259 controllers, the slave on line 2 of the master.
A controller latches the requests of its lines, offers the one with the
highest priority while none of that priority is in service, and takes a line
out of service when it is told so.
-/

namespace Newbos

/-- What the next write to the data port of a controller is. -/
inductive PicWord where
  | mask
  | offset
  | cascade
  | mode
  deriving DecidableEq, Repr

/-- A controller in fully nested mode; line 0 has the highest priority. -/
structure Pic where
  requested : Fin 8 → Bool
  inService : Fin 8 → Bool
  masked : Fin 8 → Bool
  offset : UInt8
  cascade : UInt8
  mode : UInt8
  single : Bool
  needsMode : Bool
  expects : PicWord

/-- The lines of the bits in a byte. -/
def linesOf (value : UInt8) : Fin 8 → Bool :=
  fun line => value.toBitVec.getLsbD line

/-- The line of the highest priority. -/
def firstLine (lines : Fin 8 → Bool) : Option (Fin 8) :=
  (List.finRange 8).find? lines

namespace Pic

/-- An end of interrupt that names no line. -/
def endOfInterrupt (pic : Pic) : Pic :=
  match firstLine pic.inService with
  | some line =>
      { pic with inService := Function.update pic.inService line false }
  | none => pic

/-- A write to the command port: the first word of an initialisation, or an
end of interrupt.  The other commands are not used. -/
def command (value : UInt8) (pic : Pic) : Pic :=
  if value &&& 0x10 ≠ 0 then
    { pic with
      requested := fun _ => false
      inService := fun _ => false
      masked := fun _ => false
      mode := 0
      single := value &&& 0x02 != 0
      needsMode := value &&& 0x01 != 0
      expects := .offset }
  else if value &&& 0xF8 = 0x20 then pic.endOfInterrupt
  else pic

/-- The last word of an initialisation. -/
def lastWord (pic : Pic) : PicWord :=
  if pic.needsMode then .mode else .mask

/-- A write to the data port. -/
def data (value : UInt8) (pic : Pic) : Pic :=
  match pic.expects with
  | .mask => { pic with masked := linesOf value }
  | .offset =>
      { pic with
        offset := value &&& 0xF8
        expects := if pic.single then pic.lastWord else .cascade }
  | .cascade => { pic with cascade := value, expects := pic.lastWord }
  | .mode => { pic with mode := value, expects := .mask }

/-- The line that the controller asks the processor to serve. -/
def request (pic : Pic) : Option (Fin 8) :=
  firstLine fun line =>
    pic.requested line && !pic.masked line &&
      decide (∀ other ≤ line, pic.inService other = false)

/-- The effect of an acknowledgment on the line that is served.  Bit 1 of the
mode ends the interrupt at once. -/
def acknowledge (line : Fin 8) (pic : Pic) : Pic :=
  { pic with
    requested := Function.update pic.requested line false
    inService :=
      if pic.mode &&& 0x02 = 0 then
        Function.update pic.inService line true
      else pic.inService }

/-- An edge on a line. -/
def raise (line : Fin 8) (pic : Pic) : Pic :=
  { pic with requested := Function.update pic.requested line true }

/-- The vector of a line. -/
def vector (line : Fin 8) (pic : Pic) : UInt8 :=
  pic.offset ||| UInt8.ofNat line

end Pic

structure Pics where
  master : Pic
  slave : Pic

namespace Pics

/-- The master with the request of the slave on line 2. -/
def wired (pics : Pics) : Pic :=
  { pics.master with
    requested :=
      Function.update pics.master.requested 2 pics.slave.request.isSome }

/-- The processor acknowledges an interrupt and reads its vector.  The slave
answers for the line of the master that it is known to be on. -/
def acknowledge (pics : Pics) : Option (UInt8 × Pics) :=
  pics.wired.request.bind fun line =>
    let master := pics.master.acknowledge line
    if linesOf pics.master.cascade line then
      if pics.slave.cascade &&& 0x07 = UInt8.ofNat line then
        pics.slave.request.map fun slaveLine =>
          (pics.slave.vector slaveLine,
            ⟨master, pics.slave.acknowledge slaveLine⟩)
      else none
    else some (pics.master.vector line, ⟨master, pics.slave⟩)

/-- `outb`, for the ports of the controllers. -/
def outb (port : UInt16) (value : UInt8) (pics : Pics) : Pics :=
  if port = 0x20 then { pics with master := pics.master.command value }
  else if port = 0x21 then { pics with master := pics.master.data value }
  else if port = 0xA0 then { pics with slave := pics.slave.command value }
  else if port = 0xA1 then { pics with slave := pics.slave.data value }
  else pics

/-- The calls of `outb` in `init_irq`. -/
def initIrq (pics : Pics) : Pics :=
  pics |>.outb 0x20 0x11 |>.outb 0xA0 0x11 |>.outb 0x21 0x20
    |>.outb 0xA1 0x28 |>.outb 0x21 0x04 |>.outb 0xA1 0x02 |>.outb 0x21 0x01
    |>.outb 0xA1 0x01 |>.outb 0x21 0x00 |>.outb 0xA1 0x00

/-- The number that a line has at its controller. -/
def picLine (line : Fin 16) : Fin 8 :=
  Fin.ofNat 8 line

/-- An edge on one of the sixteen lines; the slave has the upper eight. -/
def raise (line : Fin 16) (pics : Pics) : Pics :=
  if line.val < 8 then
    { pics with master := pics.master.raise (picLine line) }
  else { pics with slave := pics.slave.raise (picLine line) }

/-- The request of a line is latched. -/
def latched (pics : Pics) (line : Fin 16) : Bool :=
  if line.val < 8 then pics.master.requested (picLine line)
  else pics.slave.requested (picLine line)

/-- The effect of serving a line. -/
def serve (line : Fin 16) (pics : Pics) : Pics :=
  if line.val < 8 then
    { pics with master := pics.master.acknowledge (picLine line) }
  else
    ⟨pics.master.acknowledge 2, pics.slave.acknowledge (picLine line)⟩

/-- The state that `init_irq` brings about, apart from requests. -/
structure Programmed (pics : Pics) : Prop where
  masterOffset : pics.master.offset = 0x20
  masterCascade : pics.master.cascade = 0x04
  masterMode : pics.master.mode = 0x01
  masterExpects : pics.master.expects = .mask
  masterMasked : pics.master.masked = fun _ => false
  slaveOffset : pics.slave.offset = 0x28
  slaveCascade : pics.slave.cascade = 0x02
  slaveMode : pics.slave.mode = 0x01
  slaveExpects : pics.slave.expects = .mask
  slaveMasked : pics.slave.masked = fun _ => false

/-- No interrupt is in service. -/
structure Idle (pics : Pics) : Prop where
  master : pics.master.inService = fun _ => false
  slave : pics.slave.inService = fun _ => false

end Pics

/-- The lines of devices, with the highest priority first. -/
def priorityOrder : List (Fin 16) :=
  [0, 1, 8, 9, 10, 11, 12, 13, 14, 15, 3, 4, 5, 6, 7]

theorem linesOf_zero : linesOf 0 = fun _ => false := by
  funext line
  revert line
  decide

theorem initIrq_programmed (pics : Pics) : pics.initIrq.Programmed where
  masterOffset := rfl
  masterCascade := rfl
  masterMode := rfl
  masterExpects := rfl
  masterMasked := linesOf_zero
  slaveOffset := rfl
  slaveCascade := rfl
  slaveMode := rfl
  slaveExpects := rfl
  slaveMasked := linesOf_zero

theorem initIrq_idle (pics : Pics) : pics.initIrq.Idle :=
  ⟨rfl, rfl⟩

theorem initIrq_latched (pics : Pics) (line : Fin 16) :
    pics.initIrq.latched line = false := by
  rw [Pics.latched]
  split_ifs <;> rfl

/-! ## Requests -/

def masterLine (line : Fin 8) : Fin 16 :=
  ⟨line, by omega⟩

def slaveLine (line : Fin 8) : Fin 16 :=
  ⟨line + 8, by omega⟩

theorem priorityOrder_eq :
    priorityOrder = [0, 1].map masterLine ++
      ((List.finRange 8).map slaveLine ++ [3, 4, 5, 6, 7].map masterLine) := by
  decide

section Requests

variable {pics : Pics}

theorem picLine_masterLine (line : Fin 8) :
    Pics.picLine (masterLine line) = line := by
  revert line
  decide

theorem picLine_slaveLine (line : Fin 8) :
    Pics.picLine (slaveLine line) = line := by
  revert line
  decide

theorem latched_masterLine (line : Fin 8) :
    pics.latched (masterLine line) = pics.master.requested line := by
  rw [Pics.latched, if_pos (show (masterLine line).val < 8 from line.isLt),
    picLine_masterLine]

theorem latched_slaveLine (line : Fin 8) :
    pics.latched (slaveLine line) = pics.slave.requested line := by
  rw [Pics.latched, if_neg (by simp [slaveLine]), picLine_slaveLine]

theorem Pic.request_idle {pic : Pic} (unmasked : pic.masked = fun _ => false)
    (idle : pic.inService = fun _ => false) :
    pic.request = firstLine pic.requested := by
  simp [Pic.request, unmasked, idle]

/-- The requests of the master, with the one of the slave in between. -/
theorem firstLine_wired (lines : Fin 8 → Bool) (slave : Bool) :
    firstLine (Function.update lines 2 slave) =
      ([0, 1].find? lines).or
        ((if slave then some 2 else none).or
          ([3, 4, 5, 6, 7].find? lines)) := by
  have order : List.finRange 8 = [0, 1] ++ ([2] ++ [3, 4, 5, 6, 7]) := by
    decide
  have same (others : List (Fin 8)) (notTwo : 2 ∉ others) :
      others.find? (Function.update lines 2 slave) = others.find? lines := by
    apply List.find?_congr
    intro line member
    apply Function.update_of_ne
    rintro rfl
    exact notTwo member
  have two : [2].find? (Function.update lines 2 slave) =
      if slave then some 2 else none := by
    cases slave <;> simp
  rw [firstLine, order, List.find?_append, List.find?_append,
    same _ (by decide), two, same _ (by decide)]

theorem find?_priorityOrder :
    priorityOrder.find? pics.latched =
      (([0, 1].find? pics.master.requested).map masterLine).or
        (((firstLine pics.slave.requested).map slaveLine).or
          (([3, 4, 5, 6, 7].find? pics.master.requested).map
            masterLine)) := by
  have master : pics.latched ∘ masterLine = pics.master.requested :=
    funext latched_masterLine
  have slave : pics.latched ∘ slaveLine = pics.slave.requested :=
    funext latched_slaveLine
  rw [priorityOrder_eq, List.find?_append, List.find?_append, List.find?_map,
    List.find?_map, List.find?_map, master, slave, firstLine]

theorem acknowledge_master (programmed : pics.Programmed) {line : Fin 8}
    (requested : pics.wired.request = some line) (notTwo : line ≠ 2) :
    pics.acknowledge =
      some (UInt8.ofNat (32 + (masterLine line).val),
        pics.serve (masterLine line)) := by
  have vector : ∀ line : Fin 8,
      0x20 ||| UInt8.ofNat line = UInt8.ofNat (32 + (masterLine line).val) := by
    decide
  have direct : ∀ line : Fin 8, line ≠ 2 → linesOf 0x04 line = false := by
    decide
  rw [Pics.acknowledge, requested, Option.bind_some]
  simp only [programmed.masterCascade, direct line notTwo, Pic.vector,
    programmed.masterOffset, vector, Bool.false_eq_true, if_false]
  rw [Pics.serve, if_pos (show (masterLine line).val < 8 from line.isLt),
    picLine_masterLine]

theorem acknowledge_slave (programmed : pics.Programmed) {line : Fin 8}
    (requested : pics.wired.request = some 2)
    (slaveRequested : pics.slave.request = some line) :
    pics.acknowledge =
      some (UInt8.ofNat (32 + (slaveLine line).val),
        pics.serve (slaveLine line)) := by
  have vector : ∀ line : Fin 8,
      0x28 ||| UInt8.ofNat line = UInt8.ofNat (32 + (slaveLine line).val) := by
    decide
  have cascade : linesOf 0x04 2 = true := by decide
  have known : (0x02 : UInt8) &&& 0x07 = UInt8.ofNat (2 : Fin 8) := by decide
  rw [Pics.acknowledge, requested, Option.bind_some]
  simp only [programmed.masterCascade, cascade, programmed.slaveCascade,
    known, if_true, slaveRequested, Option.map_some, Pic.vector,
    programmed.slaveOffset, vector]
  rw [Pics.serve, if_neg (by simp [slaveLine]), picLine_slaveLine]

/-- With nothing in service, the processor is given the first latched line. -/
theorem acknowledge_idle (programmed : pics.Programmed) (idle : pics.Idle) :
    pics.acknowledge =
      (priorityOrder.find? pics.latched).map fun line : Fin 16 =>
        (UInt8.ofNat (32 + line.val), pics.serve line) := by
  have slave : pics.slave.request = firstLine pics.slave.requested :=
    Pic.request_idle programmed.slaveMasked idle.slave
  have wired : pics.wired.request =
      ([0, 1].find? pics.master.requested).or
        ((if pics.slave.request.isSome then some 2 else none).or
          ([3, 4, 5, 6, 7].find? pics.master.requested)) := by
    rw [← firstLine_wired]
    exact Pic.request_idle programmed.masterMasked idle.master
  rw [find?_priorityOrder, ← slave]
  cases first : [0, 1].find? pics.master.requested with
  | some line =>
      rw [first, Option.some_or] at wired
      have member := List.mem_of_find?_eq_some first
      rw [acknowledge_master programmed wired (by
        rintro rfl
        exact absurd member (by decide))]
      rfl
  | none =>
      rw [first, Option.none_or] at wired
      cases fromSlave : pics.slave.request with
      | some line =>
          rw [fromSlave] at wired
          rw [acknowledge_slave programmed wired fromSlave]
          rfl
      | none =>
          rw [fromSlave] at wired
          cases last : [3, 4, 5, 6, 7].find? pics.master.requested with
          | some line =>
              rw [last] at wired
              have member := List.mem_of_find?_eq_some last
              rw [acknowledge_master programmed wired (by
                rintro rfl
                exact absurd member (by decide))]
              rfl
          | none =>
              rw [last] at wired
              rw [Pics.acknowledge, wired]
              rfl

/-! ## Service -/

theorem picLine_eq_iff {line other : Fin 16}
    (sameChip : other.val < 8 ↔ line.val < 8) :
    Pics.picLine other = Pics.picLine line ↔ other = line := by
  rw [Pics.picLine, Pics.picLine, Fin.ext_iff, Fin.ext_iff, Fin.val_ofNat,
    Fin.val_ofNat]
  omega

theorem latched_raise (line other : Fin 16) :
    (pics.raise line).latched other =
      (pics.latched other || decide (other = line)) := by
  rw [Pics.raise, Pics.latched, Pics.latched]
  by_cases sameChip : other.val < 8 ↔ line.val < 8
  · by_cases same : other = line
    · by_cases low : line.val < 8
      · simp [same, low, Pic.raise]
      · simp [same, low, Pic.raise]
    · by_cases low : line.val < 8
      · simp [same, low, sameChip, Pic.raise,
          picLine_eq_iff sameChip]
      · simp [same, low, sameChip, Pic.raise,
          picLine_eq_iff sameChip]
  · have different : other ≠ line := by
      rintro rfl
      exact sameChip Iff.rfl
    by_cases low : line.val < 8
    · have high : ¬other.val < 8 := fun isLow => sameChip (by omega)
      simp [low, high, different]
    · have otherLow : other.val < 8 := by omega
      simp [low, otherLow, different]

theorem latched_serve (cascadeFree : pics.master.requested 2 = false)
    (line other : Fin 16) :
    (pics.serve line).latched other =
      (pics.latched other && decide (other ≠ line)) := by
  rw [Pics.serve, Pics.latched, Pics.latched]
  by_cases sameChip : other.val < 8 ↔ line.val < 8
  · by_cases same : other = line
    · by_cases low : line.val < 8
      · simp [same, low, Pic.acknowledge]
      · simp [same, low, Pic.acknowledge]
    · by_cases low : line.val < 8
      · simp [same, low, sameChip, Pic.acknowledge,
          picLine_eq_iff sameChip]
      · simp [same, low, sameChip, Pic.acknowledge,
          picLine_eq_iff sameChip]
  · have different : other ≠ line := by
      rintro rfl
      exact sameChip Iff.rfl
    by_cases low : line.val < 8
    · have high : ¬other.val < 8 := fun isLow => sameChip (by omega)
      simp [low, high, different]
    · have otherLow : other.val < 8 := by omega
      by_cases cascade : Pics.picLine other = 2
      · simp [low, otherLow, different, Pic.acknowledge, cascade, cascadeFree]
      · simp [low, otherLow, different, Pic.acknowledge, cascade]

theorem raise_cascadeFree (cascadeFree : pics.master.requested 2 = false)
    {line : Fin 16} (device : line ≠ 2) :
    (pics.raise line).master.requested 2 = false := by
  have kept : (pics.raise line).latched (masterLine 2) =
      (pics.latched (masterLine 2) || decide (masterLine 2 = line)) :=
    latched_raise line (masterLine 2)
  rw [latched_masterLine, latched_masterLine, cascadeFree] at kept
  have different : masterLine 2 ≠ line := fun same => device same.symm
  simpa [different] using kept

theorem serve_cascadeFree (cascadeFree : pics.master.requested 2 = false)
    (line : Fin 16) : (pics.serve line).master.requested 2 = false := by
  have kept := latched_serve cascadeFree line (masterLine 2)
  rw [latched_masterLine, latched_masterLine, cascadeFree] at kept
  simpa using kept

/-- At most one line is in service. -/
def AtMostOne (lines : Fin 8 → Bool) : Prop :=
  ∀ first second, lines first = true → lines second = true → first = second

theorem atMostOne_none : AtMostOne fun _ => false := by
  intro first second isSet
  cases isSet

theorem atMostOne_update {lines : Fin 8 → Bool}
    (none : lines = fun _ => false) (line : Fin 8) :
    AtMostOne (Function.update lines line true) := by
  have only : ∀ other, Function.update lines line true other = true →
      other = line := by
    intro other isSet
    by_contra different
    rw [Function.update_of_ne different, none] at isSet
    cases isSet
  intro first second firstSet secondSet
  rw [only first firstSet, only second secondSet]

theorem Pic.endOfInterrupt_inService {pic : Pic}
    (one : AtMostOne pic.inService) :
    pic.endOfInterrupt.inService = fun _ => false := by
  rw [Pic.endOfInterrupt]
  cases first : firstLine pic.inService with
  | none =>
      have none := List.find?_eq_none.mp first
      funext line
      exact Bool.eq_false_iff.mpr (none line (List.mem_finRange line))
  | some line =>
      have isSet := List.find?_some first
      funext other
      by_cases same : other = line
      · simp [same]
      · have clear : pic.inService other = false := by
          by_contra otherSet
          rw [Bool.not_eq_false] at otherSet
          exact same (one other line otherSet isSet)
        simp [same, clear]

theorem Pic.endOfInterrupt_eq (pic : Pic) :
    pic.endOfInterrupt =
      { pic with inService := pic.endOfInterrupt.inService } := by
  rw [Pic.endOfInterrupt]
  split <;> rfl

theorem outb_master_end :
    pics.outb 0x20 0x20 =
      { pics with master := pics.master.endOfInterrupt } :=
  rfl

theorem outb_slave_end :
    pics.outb 0xA0 0x20 =
      { pics with slave := pics.slave.endOfInterrupt } :=
  rfl

end Requests

end Newbos
