import Mathlib.Tactic.Linarith
import Newbos.Interrupts.Requests
import Newbos.Tty.Keyboard

/-!
# The timer

`timer_init` programs the first channel of the timer chip with a divisor of
its clock.  `timer_callback` counts the interrupts of that channel and prints
the count, between what the keyboard prints.
-/

namespace Newbos

/-! ## The chip -/

/-- The first channel of the timer chip.  A command selects which bytes of the
count follow; of two bytes the low one comes first. -/
structure PitChannel where
  access : BitVec 2
  mode : BitVec 3
  binary : Bool
  low : Option (BitVec 8)
  count : BitVec 16

namespace PitChannel

/-- Port 0x43.  A command to another channel, or to latch the count, selects
nothing here. -/
def command (value : BitVec 8) (pit : PitChannel) : PitChannel :=
  if value.extractLsb' 6 2 = 0#2 ∧ value.extractLsb' 4 2 ≠ 0#2 then
    { pit with
      access := value.extractLsb' 4 2
      mode := value.extractLsb' 1 3
      binary := !value.getLsbD 0
      low := none }
  else pit

/-- Port 0x40. -/
def data (value : BitVec 8) (pit : PitChannel) : PitChannel :=
  if pit.access = 1#2 then { pit with count := 0#8 ++ value }
  else if pit.access = 2#2 then { pit with count := value ++ 0#8 }
  else
    match pit.low with
    | none => { pit with low := some value }
    | some low =>
        { pit with
          low := none
          count := value ++ low }

def outb (port : UInt16) (value : BitVec 8) (pit : PitChannel) : PitChannel :=
  if port = 0x43 then pit.command value
  else if port = 0x40 then pit.data value
  else pit

/-- The clocks between two interrupts; a count of 0 stands for 65536. -/
def period (pit : PitChannel) : Nat :=
  if pit.count = 0#16 then 65536 else pit.count.toNat

end PitChannel

/-! ## The code -/

/-- `register_irq_handler`. -/
def registerIrqHandler {Handler : Type} (n : UInt8) (handler : Handler)
    (interruptHandlers : Nat → Option Handler) : Nat → Option Handler :=
  Function.update interruptHandlers n.toNat (some handler)

/-- `timer_init`; `none` when its division traps. -/
def timerInit {Handler : Type} (timerCallback : Handler)
    (frequency : BitVec 16) (interruptHandlers : Nat → Option Handler)
    (pit : PitChannel) : Option ((Nat → Option Handler) × PitChannel) :=
  -- `IRQ0` is 32.
  let handlers := registerIrqHandler 32 timerCallback interruptHandlers
  if frequency.toInt = 0 then none
  else
    let divisor := BitVec.ofInt 16 (Int.tdiv 1193180 frequency.toInt)
    let l := (divisor.signExtend 32 &&& 0xFF#32).setWidth 8
    let h := ((divisor.signExtend 32).sshiftRight 8 &&& 0xFF#32).setWidth 8
    some (handlers,
      ((pit.outb 0x43 0x36#8).outb 0x40 l).outb 0x40 h)

/-! ## Programming -/

/-- The chip interrupts with the longest period of its clock of 1193180 Hz that
is not too slow for the frequency, and expects a new command. -/
structure Programs (pit : PitChannel) (frequency : Int) : Prop where
  mode : pit.mode = 3#3
  binary : pit.binary = true
  complete : pit.low = none
  atLeast : pit.period * frequency ≤ 1193180
  longest : 1193180 < (pit.period + 1) * frequency

section Programming

theorem setWidth_mask (x : BitVec 32) :
    (x &&& 0xFF#32).setWidth 8 = x.setWidth 8 := by
  have mask : (0xFF#32).setWidth 8 = BitVec.allOnes 8 := by decide
  rw [BitVec.setWidth_and, mask, BitVec.and_allOnes]

theorem divisor_bytes (divisor : BitVec 16) :
    ((divisor.signExtend 32).sshiftRight 8 &&& 0xFF#32).setWidth 8 ++
        (divisor.signExtend 32 &&& 0xFF#32).setWidth 8 = divisor := by
  apply BitVec.eq_of_getLsbD_eq
  intro i small
  have shifted : ¬i < 8 → 8 + (i - 8) = i := by omega
  rw [BitVec.getLsbD_append, setWidth_mask, setWidth_mask]
  simp only [BitVec.getLsbD_setWidth, BitVec.getLsbD_signExtend,
    BitVec.getLsbD_sshiftRight]
  grind

variable {Handler : Type} {timerCallback : Handler} {frequency : BitVec 16}
  {interruptHandlers : Nat → Option Handler} {pit : PitChannel}

theorem PitChannel.outb_divisor (pit : PitChannel) (l h : BitVec 8) :
    ((pit.outb 0x43 0x36#8).outb 0x40 l).outb 0x40 h =
      { access := 3#2
        mode := 3#3
        binary := true
        low := none
        count := h ++ l } := rfl

theorem timerInit_eq (nonzero : frequency.toInt ≠ 0) :
    timerInit timerCallback frequency interruptHandlers pit =
      some (registerIrqHandler 32 timerCallback interruptHandlers,
        { access := 3#2
          mode := 3#3
          binary := true
          low := none
          count := BitVec.ofInt 16 (Int.tdiv 1193180 frequency.toInt) }) := by
  rw [timerInit, if_neg nonzero]
  simp only [PitChannel.outb_divisor, divisor_bytes]

theorem period_positive (pit : PitChannel) :
    0 < pit.period ∧ pit.period ≤ 65536 := by
  have bound := pit.count.isLt
  rw [PitChannel.period]
  split_ifs with zero
  · omega
  · have notZero : pit.count.toNat ≠ 0 := by
      intro same
      exact zero (BitVec.eq_of_toNat_eq same)
    omega

theorem period_ofInt {pit : PitChannel} {quotient : Nat}
    (positive : 0 < quotient) (small : quotient < 65536)
    (count : pit.count = BitVec.ofInt 16 quotient) :
    pit.period = quotient := by
  have value : pit.count.toNat = quotient := by
    rw [count, BitVec.ofInt_natCast, BitVec.toNat_ofNat]
    exact Nat.mod_eq_of_lt small
  have notZero : pit.count ≠ 0#16 := by
    rintro zero
    rw [zero, BitVec.toNat_ofNat] at value
    omega
  rw [PitChannel.period, if_neg notZero, value]

/-- The chip is programmed as requested exactly for a frequency of at least
19 Hz, whatever it did before.  A smaller one above 0 needs a divisor of more
than 16 bits, 0 traps, and no period fits a negative one. -/
theorem timer_init_programs_iff (timerCallback : Handler)
    (frequency : BitVec 16) (interruptHandlers : Nat → Option Handler)
    (pit : PitChannel) :
    (∃ handlers after, timerInit timerCallback frequency interruptHandlers
        pit = some (handlers, after) ∧
      handlers 32 = some timerCallback ∧
      Programs after frequency.toInt) ↔ 19 ≤ frequency.toInt := by
  constructor
  · rintro ⟨handlers, after, _, _, programs⟩
    obtain ⟨positive, bounded⟩ := period_positive after
    have longest := programs.longest
    -- The period would have to be larger than 65536.
    by_contra below
    rcases lt_or_ge frequency.toInt 0 with negative | notNegative
    · nlinarith
    · nlinarith
  · intro atLeast
    have nonzero : frequency.toInt ≠ 0 := by omega
    obtain ⟨f, value⟩ := Int.eq_ofNat_of_zero_le
      (Int.le_trans (by decide) atLeast)
    have large : 19 ≤ f := by omega
    have positive : 0 < f := by omega
    have bound : f < 32768 := by
      have limit := @BitVec.toInt_lt 16 frequency
      omega
    have divides : Int.tdiv 1193180 f = (1193180 / f : Nat) := rfl
    have period := @period_ofInt
      ⟨3#2, 3#3, true, none, BitVec.ofInt 16 (Int.tdiv 1193180 f)⟩
      (1193180 / f)
      (Nat.div_pos (by omega) positive)
      (Nat.div_lt_of_lt_mul (by omega))
      (by rw [divides])
    have reached := Nat.div_mul_le_self 1193180 f
    have longest :=
      Nat.lt_mul_of_div_lt (Nat.lt_succ_self (1193180 / f)) positive
    refine ⟨_, _, timerInit_eq nonzero, Function.update_self .., rfl, rfl,
      rfl, ?_, ?_⟩
    · rw [value, period]
      exact_mod_cast reached
    · rw [value, period]
      exact_mod_cast longest

end Programming

end Newbos
