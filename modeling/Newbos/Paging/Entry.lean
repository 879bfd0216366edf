import Newbos.Machine

/-!
# Facts about entries

What the bit packing of `create_pt_entry` and `create_pdt_entry` means for the
frame, the presence and the rights of an entry.
-/

namespace Newbos

theorem UInt8.one_and_cases (value : UInt8) :
    1 &&& value = 0 ∨ 1 &&& value = 1 := by
  have small : (1 &&& value).toNat < 2 := by
    rw [UInt8.toNat_and]
    exact Nat.lt_of_le_of_lt Nat.and_le_left (by decide)
  have cases_ : (1 &&& value).toNat = 0 ∨ (1 &&& value).toNat = 1 := by
    omega
  cases cases_ with
  | inl zero => exact Or.inl (UInt8.toNat_inj.mp zero)
  | inr one => exact Or.inr (UInt8.toNat_inj.mp one)

namespace Entry

theorem paddr_eq (entry : Entry) :
    entry.paddr = 65536 * entry.highAddr.toNat +
      4096 * (entry.lowAddr.toNat / 16) := by
  have lowSmall := entry.lowAddr.toNat_lt
  have masked : (entry.lowAddr &&& 0xF0).toNat =
      16 * (entry.lowAddr.toNat / 16) := by
    have split := Nat.and_two_pow_sub_one_eq_mod entry.lowAddr.toNat 4
    have whole : entry.lowAddr.toNat &&& 0xF0 =
        entry.lowAddr.toNat - entry.lowAddr.toNat % 16 := by
      have byte : ∀ value : Nat, value < 256 →
          value &&& 0xF0 = value - value % 16 := by decide +kernel
      exact byte _ lowSmall
    rw [UInt8.toNat_and]
    simp only [UInt8.reduceToNat]
    rw [whole]
    omega
  have below : (entry.lowAddr &&& 0xF0).toNat <<< 8 < 2 ^ 16 := by
    rw [masked, Nat.shiftLeft_eq]
    omega
  rw [paddr, ← Nat.shiftLeft_add_eq_or_of_lt below, masked,
    Nat.shiftLeft_eq, Nat.shiftLeft_eq]
  omega

theorem paddr_eq_frame (entry : Entry) :
    entry.paddr = fourKb * entry.frame := by
  have aligned := entry.paddr_eq
  simp only [frame, fourKb]
  omega

theorem frame_lt (entry : Entry) : entry.frame < 1048576 := by
  have value := entry.paddr_eq
  have highSmall := entry.highAddr.toNat_lt
  have lowSmall := entry.lowAddr.toNat_lt
  simp only [frame, fourKb]
  omega

@[simp] theorem empty_isPresent : empty.isPresent = false := by decide

@[simp] theorem empty_bitP : empty.bitP = false := by decide

/-- Zero, or present for the processor too. -/
def Sound (entry : Entry) : Prop :=
  entry = empty ∨ entry.bitP = true

theorem Sound.isPresent_iff {entry : Entry} (sound : entry.Sound) :
    entry.isPresent = true ↔ entry.bitP = true := by
  cases sound with
  | inl isEmpty =>
      rw [isEmpty]
      decide
  | inr isP =>
      have notZero : entry.config ≠ 0 := by
        intro zero
        rw [bitP, zero] at isP
        exact absurd isP (by decide)
      simp [isPresent, notZero, isP]

theorem Sound.eq_empty {entry : Entry} (sound : entry.Sound)
    (absent : entry.isPresent = false) : entry = empty := by
  cases sound with
  | inl isEmpty => exact isEmpty
  | inr isP =>
      have sound : entry.Sound := Or.inr isP
      rw [← sound.isPresent_iff, absent] at isP
      cases isP

end Entry

theorem packed_paddr (addr : Nat) (config : UInt8) :
    ({ config := config
       lowAddr := UInt8.ofNat (((addr >>> 12) &&& 0xF) <<< 4)
       highAddr := UInt16.ofNat ((addr >>> 16) &&& 0xFFFF) } : Entry).paddr =
      addr % 4294967296 / 4096 * 4096 := by
  rw [Entry.paddr_eq]
  have low : (addr >>> 12) &&& 15 = addr / 4096 % 16 := by
    rw [Nat.shiftRight_eq_div_pow]
    exact Nat.and_two_pow_sub_one_eq_mod (addr / 4096) 4
  have high : (addr >>> 16) &&& 65535 = addr / 65536 % 65536 := by
    rw [Nat.shiftRight_eq_div_pow]
    exact Nat.and_two_pow_sub_one_eq_mod (addr / 65536) 16
  simp only [UInt8.toNat_ofNat', UInt16.toNat_ofNat', low, high,
    Nat.shiftLeft_eq, Nat.reducePow]
  omega

section Packing

variable (addr : Nat) (rw pl : UInt8)

theorem ptEntry_frame : (ptEntry addr rw pl).frame =
    addr % 4294967296 / 4096 := by
  rw [Entry.frame, ptEntry, packed_paddr]
  simp only [fourKb]
  omega

theorem pdtEntry_frame (ps : UInt8) : (pdtEntry addr ps rw pl).frame =
    addr % 4294967296 / 4096 := by
  rw [Entry.frame, pdtEntry, packed_paddr]
  simp only [fourKb]
  omega

theorem ptEntry_flags : (ptEntry addr rw pl).isPresent = true ∧
    (ptEntry addr rw pl).bitP = true ∧
    (ptEntry addr rw pl).bitRW = (1 &&& rw != 0) ∧
    (ptEntry addr rw pl).bitUS = (1 &&& pl != 0) := by
  simp only [ptEntry, Entry.isPresent, Entry.bitP, Entry.bitRW, Entry.bitUS]
  have rwCases := UInt8.one_and_cases rw
  have plCases := UInt8.one_and_cases pl
  generalize 1 &&& rw = rwBit at *
  generalize 1 &&& pl = plBit at *
  cases rwCases with
  | inl rwZero =>
      cases plCases with
      | inl plZero => subst rwZero plZero; decide
      | inr plOne => subst rwZero plOne; decide
  | inr rwOne =>
      cases plCases with
      | inl plZero => subst rwOne plZero; decide
      | inr plOne => subst rwOne plOne; decide

theorem pdtEntry_flags : (pdtEntry addr 0 rw pl).isPresent = true ∧
    (pdtEntry addr 0 rw pl).bitP = true ∧
    (pdtEntry addr 0 rw pl).bitPS = false ∧
    (pdtEntry addr 0 rw pl).bitRW = (1 &&& rw != 0) ∧
    (pdtEntry addr 0 rw pl).bitUS = (1 &&& pl != 0) := by
  simp only [pdtEntry, Entry.isPresent, Entry.bitP, Entry.bitRW, Entry.bitUS,
    Entry.bitPS, UInt8.and_comm rw, UInt8.and_comm pl]
  have rwCases := UInt8.one_and_cases rw
  have plCases := UInt8.one_and_cases pl
  generalize 1 &&& rw = rwBit at *
  generalize 1 &&& pl = plBit at *
  cases rwCases with
  | inl rwZero =>
      cases plCases with
      | inl plZero => subst rwZero plZero; decide
      | inr plOne => subst rwZero plOne; decide
  | inr rwOne =>
      cases plCases with
      | inl plZero => subst rwOne plZero; decide
      | inr plOne => subst rwOne plOne; decide

end Packing

end Newbos
