import Mathlib.Data.Nat.Digits.Lemmas
import Newbos.Tty.Framebuffer

/-!
# Strings and numbers on the terminal

What the terminal driver writes, as the sequence of bytes that it passes to
`tty_write_byte`.  Strings are read from a memory that holds one byte for each
address and that writing to the screen does not change.
-/

namespace Newbos

/-- The terminal, and the bytes passed to `tty_write_byte` so far. -/
structure Output where
  tty : Tty
  sent : List UInt8

namespace Output

/-- A call of `tty_write_byte`. -/
def write (b : UInt8) (out : Output) : Output where
  tty := ttyWriteByte b out.tty
  sent := out.sent ++ [b]

def writeAll (bytes : List UInt8) (out : Output) : Output :=
  bytes.foldl (fun out b => out.write b) out

variable (out : Output) (b : UInt8) (bytes others : List UInt8)

@[simp] theorem writeAll_nil : out.writeAll [] = out :=
  rfl

@[simp] theorem writeAll_cons :
    out.writeAll (b :: bytes) = (out.write b).writeAll bytes :=
  rfl

@[simp] theorem writeAll_append :
    out.writeAll (bytes ++ others) = (out.writeAll bytes).writeAll others :=
  List.foldl_append

@[simp] theorem writeAll_tty :
    (out.writeAll bytes).tty = ttyWriteBytes bytes out.tty := by
  induction bytes generalizing out with
  | nil => rfl
  | cons b bytes induction => exact induction (out.write b)

@[simp] theorem writeAll_sent :
    (out.writeAll bytes).sent = out.sent ++ bytes := by
  induction bytes generalizing out with
  | nil => simp
  | cons b bytes induction =>
      rw [writeAll_cons, induction, write, List.append_assoc]
      rfl

end Output

/-- The bytes of a string literal, without its terminating NUL. -/
def asciiBytes (text : String) : List UInt8 :=
  text.toList.map Char.toUInt8

/-- `tty_write_string`; `none` when the loop does not end within the fuel.  A
pointer is reduced to 32 bits where it is used. -/
def ttyWriteString (mem : Nat → UInt8) : Nat → Nat → Output → Option Output
  | 0, _, _ => none
  | fuel + 1, s, out =>
      if mem (w32 s) = 0 then some out
      else ttyWriteString mem fuel (s + 1) (out.write (mem (w32 s)))

/-- `chars` in `tty_write_hex`. -/
def hexChars : List UInt8 :=
  asciiBytes "0123456789ABCDEF"

/-- The loop of `tty_write_hex`, from `i - 1` down to 0. -/
def ttyWriteHexLoop (n : Nat) : Nat → Output → Output
  | 0, out => out
  | i + 1, out =>
      let b := (n >>> (i * 4)) &&& 0x0F
      ttyWriteHexLoop n i (out.write (hexChars.getD b 0))

/-- `tty_write_hex`. -/
def ttyWriteHex (n : Nat) (out : Output) : Output :=
  ttyWriteHexLoop n 8 (out.writeAll (asciiBytes "0x"))

/-- `chars` in `tty_write_int`. -/
def decimalChars : List UInt8 :=
  asciiBytes "0123456789"

/-- The array `reversed` of `tty_write_int` with the bytes behind it, and the
indices that have been used. -/
structure Reversed where
  cell : Nat → UInt8
  used : List Nat

namespace Reversed

def zero : Reversed where
  cell := fun _ => 0
  used := []

def store (index : Nat) (value : UInt8) (reversed : Reversed) : Reversed where
  cell := Store.set reversed.cell index value
  used := index :: reversed.used

def load (index : Nat) (reversed : Reversed) : UInt8 × Reversed :=
  (reversed.cell index, { reversed with used := index :: reversed.used })

end Reversed

/-- The first loop of `tty_write_int`. -/
def reverseDigits (n i : Nat) (reversed : Reversed) : Nat × Reversed :=
  if 0 < n then
    reverseDigits (n / 10) (i + 1)
      (reversed.store (i + 1) (UInt8.ofNat (n % 10)))
  else (i, reversed)
termination_by n
decreasing_by omega

/-- The second loop of `tty_write_int`. -/
def writeReversed : Nat → Reversed → Output → Reversed × Output
  | 0, reversed, out => (reversed, out)
  | i + 1, reversed, out =>
      let (digit, reversed) := reversed.load (i + 1)
      writeReversed i reversed (out.write (decimalChars.getD digit.toNat 0))

/-- `tty_write_int`. -/
def ttyWriteInt (n : Nat) (out : Output) : Reversed × Output :=
  if n = 0 then (Reversed.zero, out.writeAll (asciiBytes "0"))
  else
    let (i, reversed) := reverseDigits n 0 Reversed.zero
    writeReversed i reversed out

/-! ## Strings -/

/-- Memory holds a string with its terminating NUL. -/
def HoldsString (mem : Nat → UInt8) : Nat → List UInt8 → Prop
  | s, [] => mem (w32 s) = 0
  | s, b :: rest => mem (w32 s) = b ∧ b ≠ 0 ∧ HoldsString mem (s + 1) rest

instance decidableHoldsString (mem : Nat → UInt8) :
    (s : Nat) → (bytes : List UInt8) → Decidable (HoldsString mem s bytes)
  | s, [] => inferInstanceAs (Decidable (mem (w32 s) = 0))
  | s, _ :: rest =>
      have := decidableHoldsString mem (s + 1) rest
      inferInstanceAs (Decidable (_ ∧ _ ∧ _))

section Strings

variable {mem : Nat → UInt8} {fuel s : Nat} {bytes : List UInt8}

theorem ttyWriteString_holds (holds : HoldsString mem s bytes)
    (enough : bytes.length < fuel) (out : Output) :
    ttyWriteString mem fuel s out = some (out.writeAll bytes) := by
  induction bytes generalizing s fuel out with
  | nil =>
      have atEnd : mem (w32 s) = 0 := holds
      cases fuel with
      | zero => exact absurd enough (Nat.not_lt_zero _)
      | succ fuel =>
          rw [ttyWriteString, if_pos atEnd]
          rfl
  | cons b bytes induction =>
      obtain ⟨here, notNul, tail⟩ := holds
      cases fuel with
      | zero => exact absurd enough (Nat.not_lt_zero _)
      | succ fuel =>
          rw [ttyWriteString, here, if_neg notNul]
          exact induction tail (Nat.lt_of_succ_lt_succ enough) _

theorem ttyWriteString_returned {out after : Output}
    (returned : ttyWriteString mem fuel s out = some after) :
    ∃ bytes, HoldsString mem s bytes ∧ after = out.writeAll bytes := by
  induction fuel generalizing s out with
  | zero => cases returned
  | succ fuel induction =>
      rw [ttyWriteString] at returned
      by_cases atEnd : mem (w32 s) = 0
      · rw [if_pos atEnd] at returned
        cases returned
        exact ⟨[], atEnd, rfl⟩
      · rw [if_neg atEnd] at returned
        obtain ⟨bytes, tail, rfl⟩ := induction returned
        exact ⟨mem (w32 s) :: bytes, ⟨rfl, atEnd, tail⟩, rfl⟩

end Strings

/-! ## Hexadecimal numbers -/

/-- `0x` and eight upper-case hexadecimal digits. -/
def hexadecimal (n : Nat) : List UInt8 :=
  asciiBytes "0x" ++ (List.range 8).reverse.map fun place =>
    hexChars.getD (n / 16 ^ place % 16) 0

theorem ttyWriteHexLoop_output (n count : Nat) (out : Output) :
    ttyWriteHexLoop n count out =
      out.writeAll ((List.range count).reverse.map fun place =>
        hexChars.getD (n / 16 ^ place % 16) 0) := by
  induction count generalizing out with
  | zero => rfl
  | succ count induction =>
      have digit : (n >>> (count * 4)) &&& 0x0F = n / 16 ^ count % 16 := by
        rw [show 0x0F = 2 ^ 4 - 1 by decide, Nat.and_two_pow_sub_one_eq_mod,
          Nat.shiftRight_eq_div_pow, Nat.mul_comm, Nat.pow_mul]
      rw [ttyWriteHexLoop, induction, List.range_succ, List.reverse_append,
        digit]
      rfl

theorem ttyWriteHex_output (n : Nat) (out : Output) :
    ttyWriteHex n out = out.writeAll (hexadecimal n) := by
  rw [ttyWriteHex, ttyWriteHexLoop_output, hexadecimal,
    Output.writeAll_append]

/-! ## Decimal numbers -/

/-- The decimal digits of a number, the most significant first. -/
def decimal (n : Nat) : List UInt8 :=
  if n = 0 then asciiBytes "0"
  else (Nat.digits 10 n).reverse.map fun digit => decimalChars.getD digit 0

/-- What the first loop leaves: `digits` in the cells from 1 on. -/
structure HoldsDigits (reversed : Reversed) (digits : List Nat) : Prop where
  small : ∀ digit ∈ digits, digit < 10
  cell : ∀ {position digit}, digits[position]? = some digit →
    reversed.cell (position + 1) = UInt8.ofNat digit
  used : ∀ index, index ∈ reversed.used ↔
    1 ≤ index ∧ index ≤ digits.length

section Decimal

variable {reversed : Reversed} {digits : List Nat}

theorem HoldsDigits.store (holds : HoldsDigits reversed digits) {digit : Nat}
    (small : digit < 10) :
    HoldsDigits (reversed.store (digits.length + 1) (UInt8.ofNat digit))
      (digits ++ [digit]) where
  small := by
    intro other member
    rcases List.mem_append.mp member with earlier | isNew
    · exact holds.small other earlier
    · rwa [List.mem_singleton.mp isNew]
  cell := by
    intro position other found
    by_cases last : position = digits.length
    · subst last
      rw [List.getElem?_concat_length] at found
      cases found
      exact Store.set_same ..
    · have inside : position < digits.length := by
        obtain ⟨inRange, _⟩ := List.getElem?_eq_some_iff.mp found
        rw [List.length_append, List.length_singleton] at inRange
        omega
      rw [List.getElem?_append_left inside] at found
      rw [← holds.cell found]
      exact Store.set_other _ _ (by omega)
  used := by
    intro index
    rw [Reversed.store, List.mem_cons, holds.used, List.length_append,
      List.length_singleton]
    omega

/-- The first loop appends the digits of `n`. -/
theorem reverseDigits_holds (holds : HoldsDigits reversed digits) (n : Nat) :
    (reverseDigits n digits.length reversed).1 =
        (digits ++ Nat.digits 10 n).length ∧
      HoldsDigits (reverseDigits n digits.length reversed).2
        (digits ++ Nat.digits 10 n) := by
  induction n using Nat.strongRecOn generalizing digits reversed with
  | _ n induction =>
      rw [reverseDigits]
      by_cases positive : 0 < n
      · have next := induction (n / 10) (by omega)
          (holds.store (Nat.mod_lt n (by decide)))
        rw [List.length_append, List.length_singleton] at next
        rw [if_pos positive, Nat.digits_def' (by decide) positive]
        rw [List.append_assoc] at next
        exact next
      · have isZero : n = 0 := by omega
        subst isZero
        rw [if_neg positive, Nat.digits_zero, List.append_nil]
        exact ⟨rfl, holds⟩

theorem writeReversed_spec (small : ∀ digit ∈ digits, digit < 10)
    (cell : ∀ {position digit}, digits[position]? = some digit →
      reversed.cell (position + 1) = UInt8.ofNat digit) (out : Output) :
    (writeReversed digits.length reversed out).2 =
        out.writeAll
          (digits.reverse.map fun digit => decimalChars.getD digit 0) ∧
      ∀ index, index ∈ (writeReversed digits.length reversed out).1.used ↔
        index ∈ reversed.used ∨ 1 ≤ index ∧ index ≤ digits.length := by
  induction digits using List.reverseRecOn generalizing reversed out with
  | nil =>
      refine ⟨rfl, fun index => ?_⟩
      have none : ¬(1 ≤ index ∧ index ≤ ([] : List Nat).length) := by
        simp only [List.length_nil]
        omega
      rw [or_iff_left none]
      rfl
  | append_singleton rest digit induction =>
      have isLast : reversed.cell (rest.length + 1) = UInt8.ofNat digit :=
        cell List.getElem?_concat_length
      have digitSmall : digit < 10 := small digit (by simp)
      have value : (UInt8.ofNat digit).toNat = digit :=
        UInt8.toNat_ofNat_of_lt' (Nat.lt_trans digitSmall (by decide))
      have stillHeld : ∀ {position other}, rest[position]? = some other →
          reversed.cell (position + 1) = UInt8.ofNat other := by
        intro position other found
        obtain ⟨inRange, _⟩ := List.getElem?_eq_some_iff.mp found
        apply cell
        rwa [List.getElem?_append_left inRange]
      have loop : writeReversed (rest ++ [digit]).length reversed out =
          writeReversed rest.length
            { reversed with used := (rest.length + 1) :: reversed.used }
            (out.write (decimalChars.getD digit 0)) := by
        rw [List.length_append, List.length_singleton, writeReversed]
        simp only [Reversed.load, isLast, value]
      obtain ⟨written, used⟩ := @induction
        { reversed with used := (rest.length + 1) :: reversed.used }
        (fun other member => small other (List.mem_append_left _ member))
        stillHeld (out.write (decimalChars.getD digit 0))
      rw [loop, List.reverse_append]
      refine ⟨written, fun index => ?_⟩
      rw [used, List.mem_cons, List.length_append, List.length_singleton,
        or_assoc, or_left_comm, or_congr_right]
      omega

end Decimal

theorem HoldsDigits.zero : HoldsDigits Reversed.zero [] where
  small := by simp
  cell := by simp
  used := by
    intro index
    simp only [Reversed.zero, List.not_mem_nil, List.length_nil, false_iff]
    omega

theorem ttyWriteInt_output (n : Nat) (out : Output) :
    (ttyWriteInt n out).2 = out.writeAll (decimal n) := by
  rw [ttyWriteInt, decimal]
  by_cases isZero : n = 0
  · rw [if_pos isZero, if_pos isZero]
  · obtain ⟨length, holds⟩ := reverseDigits_holds HoldsDigits.zero n
    rw [if_neg isZero, if_neg isZero]
    simp only [List.length_nil, List.nil_append] at length holds
    simp only [length]
    exact (writeReversed_spec holds.small holds.cell out).1

theorem ttyWriteInt_used (n : Nat) (out : Output) (index : Nat) :
    index ∈ (ttyWriteInt n out).1.used ↔
      1 ≤ index ∧ index ≤ (Nat.digits 10 n).length := by
  rw [ttyWriteInt]
  by_cases isZero : n = 0
  · rw [if_pos isZero, isZero]
    exact HoldsDigits.zero.used index
  · obtain ⟨length, holds⟩ := reverseDigits_holds HoldsDigits.zero n
    rw [if_neg isZero]
    simp only [List.length_nil, List.nil_append] at length holds
    simp only [length]
    rw [(writeReversed_spec holds.small holds.cell out).2, holds.used,
      or_self]

/-- The digits come out right for every number, in an array that is long
enough for nine of them. -/
theorem tty_write_int_in_bounds_iff (n : Nat) (out : Output) :
    ((ttyWriteInt n out).2.sent = out.sent ++ decimal n ∧
      ∀ index ∈ (ttyWriteInt n out).1.used, index ≤ 9) ↔
      n < 1000000000 := by
  have digits : (Nat.digits 10 n).length ≤ 9 ↔ n < 10 ^ 9 :=
    Nat.digits_length_le_iff (by decide) n
  constructor
  · rintro ⟨_, inBounds⟩
    apply digits.mp
    by_contra long
    have last := inBounds (Nat.digits 10 n).length
      ((ttyWriteInt_used n out _).mpr ⟨by omega, Nat.le_refl _⟩)
    exact long last
  · intro small
    refine ⟨?_, ?_⟩
    · rw [ttyWriteInt_output, Output.writeAll_sent]
    · intro index member
      have upper := ((ttyWriteInt_used n out index).mp member).2
      exact upper.trans (digits.mpr small)

/-- The smallest number of ten digits is stored behind the end. -/
theorem tty_write_int_out_of_bounds :
    ¬∀ n, n < 4294967296 → ∀ out : Output,
      (ttyWriteInt n out).2.sent = out.sent ++ decimal n ∧
      ∀ index ∈ (ttyWriteInt n out).1.used, index ≤ 9 := by
  intro claimed
  have inBounds := (claimed 1000000000 (by decide)
    ⟨⟨fun _ => 0, 0, [], 0, fun _ => 0⟩, []⟩).2 10
  have tenDigits : 10 ≤ (Nat.digits 10 1000000000).length := by norm_num
  exact absurd (inBounds ((ttyWriteInt_used _ _ 10).mpr
    ⟨by decide, tenDigits⟩)) (by decide)

end Newbos
