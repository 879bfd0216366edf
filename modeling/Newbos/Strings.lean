import Newbos.Library.Copies
import Newbos.Library.Word

/-!
# Moving bytes

`memmove` copies one byte after the other.  It begins at the end of the source
that lies inside the destination, so that every byte is read before the copy
overwrites it.
-/

namespace Newbos

/-- `_dst[i] = _src[i]`. -/
def copyByte (dst src i : Nat) (mem : Nat → UInt8) : Nat → UInt8 :=
  Store.set mem (w32 (dst + i)) (mem (w32 (src + i)))

/-- The first loop of `memmove`, which counts `i` up to `len`; the first
argument is `len - i`. -/
def memmoveUp (dst src : Nat) : Nat → Nat → (Nat → UInt8) → Nat → UInt8
  | 0, _, mem => mem
  | rounds + 1, i, mem =>
      memmoveUp dst src rounds (i + 1) (copyByte dst src i mem)

/-- The second loop of `memmove`, which counts `i` down to 0. -/
def memmoveDown (dst src : Nat) : Nat → (Nat → UInt8) → Nat → UInt8
  | 0, mem => mem
  | i + 1, mem => memmoveDown dst src i (copyByte dst src i mem)

/-- `memmove`, with the memory that it leaves. -/
def memmove (dst src len : Nat) (mem : Nat → UInt8) : Nat × (Nat → UInt8) :=
  if dst < src then (dst, memmoveUp dst src len 0 mem)
  else (dst, memmoveDown dst src len mem)

/-- The destination holds what the source held, and nothing else is changed. -/
structure MovesBytes (dst src len : Nat) (mem after : Nat → UInt8) : Prop where
  moved : ∀ i < len, after (dst + i) = mem (src + i)
  kept : ∀ address, ¬(dst ≤ address ∧ address < dst + len) →
    after address = mem address

/-- One round, as a copy between two addresses. -/
def byteCopy (dst src i : Nat) : Copy Nat where
  target := w32 (dst + i)
  source := w32 (src + i)

section Loops

variable {dst src len : Nat} {mem : Nat → UInt8}

theorem copyByte_eq (i : Nat) :
    copyByte dst src i mem = (byteCopy dst src i).run mem := by
  funext address
  rw [copyByte, Copy.run, Function.update_apply]
  rfl

theorem memmoveUp_eq (rounds i : Nat) :
    memmoveUp dst src rounds i mem =
      runCopies ((List.range' i rounds).map (byteCopy dst src)) mem := by
  induction rounds generalizing i mem with
  | zero => rfl
  | succ rounds induction =>
      rw [memmoveUp, induction, copyByte_eq]
      rfl

theorem memmoveDown_eq (i : Nat) :
    memmoveDown dst src i mem =
      runCopies ((List.range i).reverse.map (byteCopy dst src)) mem := by
  induction i generalizing mem with
  | zero => rfl
  | succ i induction =>
      rw [memmoveDown, induction, copyByte_eq, List.range_succ,
        List.reverse_append]
      rfl

/-- Rounds in an order in which none disturbs a later one move the bytes. -/
theorem Undisturbed.movesBytes {indices : List Nat}
    (undisturbed : Undisturbed (indices.map (byteCopy dst src)))
    (dstRange : dst + len ≤ 4294967296) (srcRange : src + len ≤ 4294967296)
    (all : ∀ i, i ∈ indices ↔ i < len) :
    MovesBytes dst src len mem
      (runCopies (indices.map (byteCopy dst src)) mem) := by
  constructor
  · intro i small
    have member : byteCopy dst src i ∈ indices.map (byteCopy dst src) :=
      List.mem_map_of_mem ((all i).mpr small)
    have copied : runCopies (indices.map (byteCopy dst src)) mem
        (w32 (dst + i)) = mem (w32 (src + i)) :=
      undisturbed.runCopies_target member
    rwa [w32_of_lt (by omega), w32_of_lt (by omega)] at copied
  · intro address outside
    apply runCopies_other
    intro copy member
    obtain ⟨i, isIndex, rfl⟩ := List.mem_map.mp member
    have small := (all i).mp isIndex
    have target : (byteCopy dst src i).target = dst + i :=
      w32_of_lt (by omega)
    omega

/-- Upwards, a byte that is written lies below those still to be read, or above
all of them. -/
theorem undisturbed_up (placed : dst ≤ src ∨ src + len ≤ dst)
    (dstRange : dst + len ≤ 4294967296) (srcRange : src + len ≤ 4294967296) :
    Undisturbed ((List.range' 0 len).map (byteCopy dst src)) := by
  apply List.pairwise_map.mpr
  apply List.Pairwise.imp_of_mem _ (List.pairwise_lt_range' 1)
  intro earlier later _ laterMember increasing
  have small := (List.mem_range'_1.mp laterMember).2
  simp only [byteCopy]
  rw [w32_of_lt (by omega), w32_of_lt (by omega), w32_of_lt (by omega)]
  omega

theorem undisturbed_down (above : src ≤ dst)
    (dstRange : dst + len ≤ 4294967296) :
    Undisturbed ((List.range len).reverse.map (byteCopy dst src)) := by
  apply List.pairwise_map.mpr
  apply List.pairwise_reverse.mpr
  apply List.Pairwise.imp_of_mem _ List.pairwise_lt_range
  intro later earlier _ earlierMember decreasing
  have small := List.mem_range.mp earlierMember
  simp only [byteCopy]
  rw [w32_of_lt (by omega), w32_of_lt (by omega), w32_of_lt (by omega)]
  omega

end Loops

/-- `memmove` is correct for ranges that overlap in any way. -/
theorem memmove_moves_bytes (mem : Nat → UInt8) (dst src len : Nat)
    (dstRange : dst + len ≤ 4294967296) (srcRange : src + len ≤ 4294967296) :
    MovesBytes dst src len mem (memmove dst src len mem).2 := by
  by_cases below : dst < src
  · rw [memmove, if_pos below, memmoveUp_eq]
    apply (undisturbed_up (Or.inl (Nat.le_of_lt below)) dstRange
      srcRange).movesBytes dstRange srcRange
    simp
  · rw [memmove, if_neg below, memmoveDown_eq]
    apply (undisturbed_down (Nat.le_of_not_lt below) dstRange).movesBytes
      dstRange srcRange
    simp

/-- Three bytes, moved up by two. -/
theorem memmove_moves_bytes_overlapping :
    MovesBytes 2 0 3 UInt8.ofNat (memmove 2 0 3 UInt8.ofNat).2 :=
  memmove_moves_bytes UInt8.ofNat 2 0 3 (by decide) (by decide)

example : (List.range 6).map (memmove 2 0 3 UInt8.ofNat).2 =
    [0, 1, 0, 1, 2, 5] := by
  decide

/-! ## Copying without regard to overlap -/

/-- `memcpy`; its loop is the first one of `memmove`. -/
def memcpy (dst src n : Nat) (mem : Nat → UInt8) : Nat × (Nat → UInt8) :=
  (dst, memmoveUp dst src n 0 mem)

section Overlap

variable {dst src n : Nat} {mem : Nat → UInt8}

/-- When the destination begins `shift` bytes inside the source, the byte
that begins the destination is read after it has been overwritten. -/
theorem memmoveUp_overwritten {shift : Nat} (positive : 0 < shift)
    (inside : shift < n) (range : src + shift + n ≤ 4294967296) :
    memmoveUp (src + shift) src n 0 mem (src + shift + shift) = mem src := by
  have split : List.range' 0 n =
      List.range' 0 shift ++
        shift :: List.range' (shift + 1) (n - shift - 1) := by
    rw [← List.range'_succ, show n - shift - 1 + 1 = n - shift by omega]
    nth_rewrite 2 [← Nat.zero_add shift]
    rw [List.range'_append_1, Nat.add_sub_cancel' (Nat.le_of_lt inside)]
  rw [memmoveUp_eq, split, List.map_append, List.map_cons, runCopies_append,
    runCopies_cons]
  -- The rounds before number `shift` copy `mem src` to where it will read.
  generalize firstEq : runCopies ((List.range' 0 shift).map
    (byteCopy (src + shift) src)) mem = first
  have copied : first (src + shift) = mem src := by
    have undisturbed := undisturbed_up (Or.inr (Nat.le_refl (src + shift)))
      (show src + shift + shift ≤ 4294967296 by omega) (by omega)
    have member : byteCopy (src + shift) src 0 ∈
        (List.range' 0 shift).map (byteCopy (src + shift) src) := by
      apply List.mem_map_of_mem
      exact List.mem_range'_1.mpr ⟨Nat.le_refl 0, by omega⟩
    have target := @Undisturbed.runCopies_target _ _ _ _ mem undisturbed _
      member
    rw [firstEq] at target
    simp only [byteCopy, Nat.add_zero] at target
    rwa [w32_of_lt (by omega), w32_of_lt (by omega)] at target
  rw [runCopies_other]
  · have here := (byteCopy (src + shift) src shift).run_target first
    simp only [byteCopy] at here ⊢
    rw [w32_of_lt (show src + shift + shift < 4294967296 by omega),
      w32_of_lt (show src + shift < 4294967296 by omega)] at here ⊢
    rw [here, copied]
  · intro copy member
    obtain ⟨i, isIndex, rfl⟩ := List.mem_map.mp member
    have bounds := List.mem_range'_1.mp isIndex
    simp only [byteCopy]
    rw [w32_of_lt (by omega)]
    omega

/-- `memcpy` moves the bytes of every memory exactly when the destination does
not begin inside the source, behind its first byte. -/
theorem memcpy_moves_bytes_iff (dst src n : Nat)
    (dstRange : dst + n ≤ 4294967296) (srcRange : src + n ≤ 4294967296) :
    (∀ mem, MovesBytes dst src n mem (memcpy dst src n mem).2) ↔
      dst ≤ src ∨ src + n ≤ dst := by
  constructor
  · intro moves
    by_contra overlapping
    obtain ⟨shift, rfl⟩ : ∃ shift, dst = src + shift :=
      ⟨dst - src, by omega⟩
    have moved : memmoveUp (src + shift) src n 0
        (fun address => if address = src + shift then 1 else 0)
        (src + shift + shift) = if src + shift = src + shift then 1 else 0 :=
      (moves _).moved shift (by omega)
    rw [memmoveUp_overwritten (by omega) (by omega) dstRange,
      if_neg (by omega), if_pos rfl] at moved
    exact absurd moved (by decide)
  · rintro placed mem
    rw [memcpy, memmoveUp_eq]
    apply (undisturbed_up placed dstRange srcRange).movesBytes dstRange
      srcRange
    simp

/-- Three bytes, moved down and up by two. -/
theorem memcpy_moves_bytes_iff_downwards :
    (∀ mem, MovesBytes 0 2 3 mem (memcpy 0 2 3 mem).2) ∧
      ¬∀ mem, MovesBytes 2 0 3 mem (memcpy 2 0 3 mem).2 :=
  ⟨(memcpy_moves_bytes_iff 0 2 3 (by decide) (by decide)).mpr
      (Or.inl (by decide)),
    fun moves => absurd
      ((memcpy_moves_bytes_iff 2 0 3 (by decide) (by decide)).mp moves)
      (by decide)⟩

end Overlap

/-! ## Filling, comparing and measuring -/

/-- The loop of `memset`; the first argument is `len - i`. -/
def memsetLoop (b : Nat) (c : Int) : Nat → Nat → (Nat → UInt8) → Nat → UInt8
  | 0, _, mem => mem
  | rounds + 1, i, mem =>
      memsetLoop b c rounds (i + 1)
        (Store.set mem (w32 (b + i)) (UInt8.ofInt c))

/-- `memset`, with the memory that it leaves. -/
def memset (b : Nat) (c : Int) (len : Nat) (mem : Nat → UInt8) :
    Nat × (Nat → UInt8) :=
  (b, memsetLoop b c len 0 mem)

theorem memsetLoop_eq {b rounds i : Nat} (c : Int) {mem : Nat → UInt8}
    (range : b + i + rounds ≤ 4294967296) (address : Nat) :
    memsetLoop b c rounds i mem address =
      if b + i ≤ address ∧ address < b + i + rounds then UInt8.ofInt c
      else mem address := by
  induction rounds generalizing i mem with
  | zero =>
      rw [memsetLoop, if_neg (by omega)]
  | succ rounds induction =>
      rw [memsetLoop, induction (by omega), w32_of_lt (by omega), Store.set]
      by_cases here : address = b + i
      · rw [if_neg (by omega), if_pos here, if_pos (by omega)]
      · have same : (b + (i + 1) ≤ address ∧
            address < b + (i + 1) + rounds) ↔
              b + i ≤ address ∧ address < b + i + (rounds + 1) := by omega
        simp only [same, here, if_false]

theorem memset_eq {b len : Nat} (c : Int) {mem : Nat → UInt8}
    (range : b + len ≤ 4294967296) (address : Nat) :
    (memset b c len mem).2 address =
      if b ≤ address ∧ address < b + len then UInt8.ofInt c
      else mem address :=
  memsetLoop_eq c range address

/-- The loop of `memcmp`; the first argument is `n - i`. -/
def memcmpLoop (mem : Nat → UInt8) (s1 s2 : Nat) : Nat → Nat → Int
  | 0, _ => 0
  | rounds + 1, i =>
      if mem (w32 (s1 + i)) < mem (w32 (s2 + i)) then -1
      else if mem (w32 (s2 + i)) < mem (w32 (s1 + i)) then 1
      else memcmpLoop mem s1 s2 rounds (i + 1)

/-- `memcmp`. -/
def memcmp (mem : Nat → UInt8) (s1 s2 n : Nat) : Int :=
  memcmpLoop mem s1 s2 n 0

/-- The bytes from an address on. -/
def bytesFrom (mem : Nat → UInt8) (s first count : Nat) : List UInt8 :=
  (List.range' first count).map fun i => mem (w32 (s + i))

/-- The three outcomes of a comparison in the lexicographic order. -/
structure ComparesAs (result : Int) (left right : List UInt8) : Prop where
  less : result = -1 ↔ left < right
  greater : result = 1 ↔ right < left
  equal : result = 0 ↔ left = right

theorem memcmpLoop_compares (mem : Nat → UInt8) (s1 s2 rounds i : Nat) :
    ComparesAs (memcmpLoop mem s1 s2 rounds i) (bytesFrom mem s1 i rounds)
      (bytesFrom mem s2 i rounds) := by
  induction rounds generalizing i with
  | zero =>
      constructor
      · simp [memcmpLoop, bytesFrom]
      · simp [memcmpLoop, bytesFrom]
      · simp [memcmpLoop, bytesFrom]
  | succ rounds induction =>
      have later := induction (i + 1)
      have front (s : Nat) : bytesFrom mem s i (rounds + 1) =
          mem (w32 (s + i)) :: bytesFrom mem s (i + 1) rounds := rfl
      rw [memcmpLoop, front, front]
      generalize mem (w32 (s1 + i)) = first
      generalize mem (w32 (s2 + i)) = second
      rcases Nat.lt_trichotomy first.toNat second.toNat with
        less | same | greater
      · have less : first < second := less
        rw [if_pos less]
        have notSame := UInt8.ne_of_lt less
        have notGreater := UInt8.lt_asymm less
        constructor
        · simp [List.cons_lt_cons_iff, less]
        · simp [List.cons_lt_cons_iff, notGreater, notSame.symm]
        · simp [notSame]
      · obtain rfl := UInt8.toNat_inj.mp same
        rw [if_neg (UInt8.lt_irrefl first), if_neg (UInt8.lt_irrefl first)]
        constructor
        · simp [later.less]
        · simp [later.greater]
        · simp [later.equal]
      · have greater : second < first := greater
        have notSame := (UInt8.ne_of_lt greater).symm
        have notLess := UInt8.lt_asymm greater
        rw [if_neg notLess, if_pos greater]
        constructor
        · simp [List.cons_lt_cons_iff, notLess, notSame]
        · simp [List.cons_lt_cons_iff, greater]
        · simp [notSame]

/-- `memcmp` decides the lexicographic order of the bytes. -/
theorem memcmp_compares (mem : Nat → UInt8) (s1 s2 n : Nat) :
    ComparesAs (memcmp mem s1 s2 n) (bytesFrom mem s1 0 n)
      (bytesFrom mem s2 0 n) :=
  memcmpLoop_compares mem s1 s2 n 0

/-- The loop of `strlen`; `none` when it does not end within the fuel.  `len`
is advanced by the test that ends the loop, too. -/
def strlenLoop (mem : Nat → UInt8) (s : Nat) : Nat → Nat → Option Nat
  | 0, _ => none
  | fuel + 1, len =>
      if mem (w32 (s + len)) ≠ 0 then strlenLoop mem s fuel (w32 (len + 1))
      else some (w32 (len + 1))

/-- `strlen`. -/
def strlen (mem : Nat → UInt8) (s fuel : Nat) : Option Nat :=
  strlenLoop mem s fuel 0

/-- The first NUL at or behind an address lies so many bytes further. -/
structure NulAt (mem : Nat → UInt8) (s length : Nat) : Prop where
  nul : mem (w32 (s + length)) = 0
  before : ∀ i < length, mem (w32 (s + i)) ≠ 0

section Strlen

variable {mem : Nat → UInt8} {s : Nat}

theorem NulAt.strlenLoop {length len fuel : Nat} (nulAt : NulAt mem s length)
    (started : len ≤ length) (range : length < 4294967296) :
    strlenLoop mem s fuel len =
      if length - len < fuel then some (w32 (length + 1)) else none := by
  induction fuel generalizing len with
  | zero => rfl
  | succ fuel induction =>
      rw [Newbos.strlenLoop]
      by_cases atEnd : len = length
      · rw [atEnd, if_neg (fun notNul => notNul nulAt.nul), if_pos (by omega)]
      · rw [if_pos (nulAt.before len (by omega)), w32_of_lt (by omega),
          induction (by omega)]
        have same : length - (len + 1) < fuel ↔ length - len < fuel + 1 := by
          omega
        simp only [same]

theorem strlenLoop_returned {len fuel result : Nat}
    (range : len < 4294967296)
    (returned : strlenLoop mem s fuel len = some result) :
    ∃ offset, offset < 4294967296 ∧ mem (w32 (s + offset)) = 0 := by
  induction fuel generalizing len with
  | zero => cases returned
  | succ fuel induction =>
      rw [strlenLoop] at returned
      by_cases notNul : mem (w32 (s + len)) ≠ 0
      · rw [if_pos notNul] at returned
        exact induction (w32_lt _) returned
      · exact ⟨len, range, not_not.mp notNul⟩

/-- `strlen` returns one more than the length of the string, and does not
return when no byte of the address space is 0. -/
theorem strlen_returns_iff (result : Nat) :
    (∃ fuel, strlen mem s fuel = some result) ↔
      ∃ length < 4294967296, NulAt mem s length ∧
        result = w32 (length + 1) := by
  constructor
  · rintro ⟨fuel, returned⟩
    have found := strlenLoop_returned (by decide) returned
    classical
    obtain ⟨range, nul⟩ := Nat.find_spec found
    have nulAt : NulAt mem s (Nat.find found) := by
      refine ⟨nul, fun i early isNul => ?_⟩
      exact Nat.find_min found early ⟨Nat.lt_trans early range, isNul⟩
    refine ⟨_, range, nulAt, ?_⟩
    rw [strlen, nulAt.strlenLoop (Nat.zero_le _) range] at returned
    split_ifs at returned
    cases returned
    rfl
  · rintro ⟨length, range, nulAt, rfl⟩
    refine ⟨length + 1, ?_⟩
    rw [strlen, nulAt.strlenLoop (Nat.zero_le _) range, if_pos (by omega)]

end Strlen

end Newbos
