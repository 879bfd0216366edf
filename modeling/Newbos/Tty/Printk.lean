import Mathlib.Data.List.DropRight
import Newbos.Tty.Output
import Newbos.Tty.Refinement

/-!
# Formatted output

`printk` walks over its format with one pointer, which is advanced in the loop
header and inside the `switch`.  The reference is a relation between a format,
the arguments that it asks for, and the bytes of the expansion.
-/

namespace Newbos

abbrev asciiPercent : UInt8 := 37

abbrev asciiUpperX : UInt8 := 88

abbrev asciiS : UInt8 := 115

abbrev asciiU : UInt8 := 117

/-- The variables of `printk`.  `p` counts from `fmt` and `ap` counts argument
words; `inspected` lists the bytes of the format that have been read. -/
structure Printk where
  p : Nat
  ap : Nat
  inspected : List Nat
  out : Output

section Code

variable (mem : Nat → UInt8) (words : Nat → Nat) (fmt fuel : Nat)

/-- The byte at `p`. -/
def Printk.byte (state : Printk) : UInt8 :=
  mem (w32 (fmt + state.p))

def Printk.inspect (state : Printk) : Printk :=
  { state with inspected := state.p :: state.inspected }

/-- The `switch`.  `words` are the words behind `fmt` on the stack. -/
def printkSwitch (c : UInt8) (state : Printk) : Option Printk :=
  if c = asciiUpperX then
    some { state with
      ap := state.ap + 1
      out := ttyWriteHex (words state.ap) state.out }
  else if c = asciiU then
    some { state with
      ap := state.ap + 1
      out := (ttyWriteInt (words state.ap) state.out).2 }
  else if c = asciiS then
    (ttyWriteString mem fuel (words state.ap) state.out).map fun out =>
      { state with
        ap := state.ap + 1
        out := out }
  else if c = asciiPercent then
    some { state with out := state.out.write asciiPercent }
  else some state

/-- The loop; `none` when it, or the loop of a string, does not end within the
fuel. -/
def printkLoop : Nat → Printk → Option Printk
  | 0, _ => none
  | rounds + 1, state =>
      let c := state.byte mem fmt
      let state := state.inspect
      if c = 0 then some state
      else if c ≠ asciiPercent then
        printkLoop rounds
          { state with
            p := state.p + 1
            out := state.out.write c }
      else
        let state := Printk.inspect { state with p := state.p + 1 }
        (printkSwitch mem words fuel (state.byte mem fmt) state).bind
          fun state => printkLoop rounds { state with p := state.p + 1 }

/-- `printk`. -/
def printk (out : Output) : Option Printk :=
  printkLoop mem words fmt fuel fuel ⟨0, 0, [], out⟩

end Code

/-! ## The reference -/

inductive Argument where
  | value (n : Nat)
  | text (bytes : List UInt8)
  deriving DecidableEq, Repr

/-- The expansion of a format with exactly the arguments that it asks for. -/
inductive Expands : List UInt8 → List Argument → List UInt8 → Prop where
  | done : Expands [] [] []
  | copy {format arguments expansion} (b : UInt8) :
      b ≠ asciiPercent →
      Expands format arguments expansion →
      Expands (b :: format) arguments (b :: expansion)
  | hexadecimal {format arguments expansion} (n : Nat) :
      Expands format arguments expansion →
      Expands (asciiPercent :: asciiUpperX :: format)
        (.value n :: arguments) (hexadecimal n ++ expansion)
  | decimal {format arguments expansion} (n : Nat) :
      Expands format arguments expansion →
      Expands (asciiPercent :: asciiU :: format)
        (.value n :: arguments) (decimal n ++ expansion)
  | string {format arguments expansion} (bytes : List UInt8) :
      Expands format arguments expansion →
      Expands (asciiPercent :: asciiS :: format)
        (.text bytes :: arguments) (bytes ++ expansion)
  | percent {format arguments expansion} :
      Expands format arguments expansion →
      Expands (asciiPercent :: asciiPercent :: format) arguments
        (asciiPercent :: expansion)
  | dropped {format arguments expansion} (c : UInt8) :
      c ∉ [asciiUpperX, asciiU, asciiS, asciiPercent] →
      Expands format arguments expansion →
      Expands (asciiPercent :: c :: format) arguments expansion
  | last : Expands [asciiPercent] [] []

/-- The argument words from number `ap` on supply the arguments. -/
def Supplies (mem : Nat → UInt8) (words : Nat → Nat) :
    Nat → List Argument → Prop
  | _, [] => True
  | ap, .value n :: rest => words ap = n ∧ Supplies mem words (ap + 1) rest
  | ap, .text bytes :: rest =>
      HoldsString mem (words ap) bytes ∧ Supplies mem words (ap + 1) rest

theorem Expands.literal {text format expansion : List UInt8}
    {arguments : List Argument} (plain : asciiPercent ∉ text)
    (expands : Expands format arguments expansion) :
    Expands (text ++ format) arguments (text ++ expansion) := by
  induction text with
  | nil => exact expands
  | cons b rest induction =>
      obtain ⟨first, later⟩ := List.ne_and_not_mem_of_not_mem_cons plain
      exact .copy b (Ne.symm first) (induction later)

/-- The number of percent signs at the end of a format. -/
def trailingPercents (format : List UInt8) : Nat :=
  (format.rtakeWhile fun b => b = asciiPercent).length

section Trailing

variable (format : List UInt8)

theorem trailingPercents_le : trailingPercents format ≤ format.length := by
  have suffix := List.rtakeWhile_suffix
    (fun b : UInt8 => decide (b = asciiPercent)) format
  exact suffix.length_le

theorem trailingPercents_cons (b : UInt8) :
    trailingPercents (b :: format) =
      if trailingPercents format = format.length ∧ b = asciiPercent then
        format.length + 1
      else trailingPercents format := by
  simp only [trailingPercents, List.rtakeWhile, List.length_reverse,
    List.reverse_cons, List.takeWhile_append]
  by_cases all : (format.reverse.takeWhile
      fun b => decide (b = asciiPercent)).length = format.length
  · by_cases isPercent : b = asciiPercent
    · simp [all, isPercent]
    · simp [all, isPercent]
  · simp [all]

theorem trailingPercents_copy {b : UInt8} (plain : b ≠ asciiPercent) :
    trailingPercents (b :: format) = trailingPercents format := by
  rw [trailingPercents_cons, if_neg fun both => plain both.2]

theorem trailingPercents_conversion {c : UInt8}
    (plain : c ≠ asciiPercent) :
    trailingPercents (asciiPercent :: c :: format) =
      trailingPercents format := by
  have short := trailingPercents_le format
  rw [trailingPercents_cons, trailingPercents_copy format plain, if_neg]
  rintro ⟨all, _⟩
  rw [List.length_cons] at all
  omega

theorem trailingPercents_percent :
    Even (trailingPercents (asciiPercent :: asciiPercent :: format)) ↔
      Even (trailingPercents format) := by
  have short := trailingPercents_le format
  by_cases all : trailingPercents format = format.length
  · have one : trailingPercents (asciiPercent :: format) =
        format.length + 1 := by
      rw [trailingPercents_cons, if_pos ⟨all, rfl⟩]
    rw [trailingPercents_cons, one, List.length_cons, if_pos ⟨rfl, rfl⟩, all,
      Nat.add_assoc, Nat.even_add]
    exact iff_true_right (by decide)
  · have one : trailingPercents (asciiPercent :: format) =
        trailingPercents format := by
      rw [trailingPercents_cons, if_neg fun both => all both.1]
    rw [trailingPercents_cons, one, List.length_cons, if_neg]
    rintro ⟨tooLong, _⟩
    omega

end Trailing

/-! ## Running the code -/

/-- A part of a run that reads `length` more bytes of the format, takes
`count` arguments and writes `bytes`. -/
structure Prints (state final : Printk) (length count : Nat)
    (bytes : List UInt8) : Prop where
  ap : final.ap = state.ap + count
  out : final.out = state.out.writeAll bytes
  inspected : ∀ offset ∈ final.inspected,
    offset ∈ state.inspected ∨ offset ≤ state.p + length

section Runs

variable {mem : Nat → UInt8} {words : Nat → Nat} {fmt fuel rounds : Nat}
  {state next final : Printk} {format : List UInt8}
  {arguments : List Argument} {expansion : List UInt8}

theorem printkLoop_done (atEnd : mem (w32 (fmt + state.p)) = 0) :
    printkLoop mem words fmt fuel (rounds + 1) state =
      some state.inspect := by
  simp only [printkLoop, Printk.byte, atEnd, if_true]

theorem printkLoop_copy {b : UInt8} (here : mem (w32 (fmt + state.p)) = b)
    (notNul : b ≠ 0) (plain : b ≠ asciiPercent) :
    printkLoop mem words fmt fuel (rounds + 1) state =
      printkLoop mem words fmt fuel rounds
        ⟨state.p + 1, state.ap, state.p :: state.inspected,
          state.out.write b⟩ := by
  simp only [printkLoop, Printk.byte, here, notNul, plain, Printk.inspect,
    if_false, ne_eq, not_false_eq_true, if_true]

/-- The state in which the `switch` looks at the letter of a conversion. -/
def Printk.atLetter (state : Printk) : Printk :=
  ⟨state.p + 1, state.ap, (state.p + 1) :: state.p :: state.inspected,
    state.out⟩

theorem printkLoop_conversion {c : UInt8}
    (here : mem (w32 (fmt + state.p)) = asciiPercent)
    (letter : mem (w32 (fmt + (state.p + 1))) = c) :
    printkLoop mem words fmt fuel (rounds + 1) state =
      (printkSwitch mem words fuel c state.atLetter).bind fun state =>
        printkLoop mem words fmt fuel rounds
          { state with p := state.p + 1 } := by
  have notNul : asciiPercent ≠ 0 := by decide
  simp only [printkLoop, Printk.byte, here, notNul, Printk.inspect,
    if_false, ne_eq, not_true_eq_false, Printk.atLetter, letter]

/-- The effect of one conversion in front of the rest. -/
theorem Prints.conversion {length count taken : Nat}
    {bytes written : List UInt8}
    (switched : next = { state.atLetter with
      ap := state.ap + taken
      out := state.out.writeAll written })
    (rest : Prints { next with p := next.p + 1 } final length count bytes) :
    Prints state final (length + 2) (count + taken) (written ++ bytes) where
  ap := by
    rw [rest.ap, switched]
    simp only [Nat.add_assoc, Nat.add_comm taken]
  out := by
    rw [rest.out, switched, Output.writeAll_append]
  inspected := by
    intro offset member
    rcases rest.inspected offset member with earlier | inside
    · rw [switched] at earlier
      simp only [Printk.atLetter, List.mem_cons] at earlier
      rcases earlier with letter | percent | before
      · exact Or.inr (by omega)
      · exact Or.inr (by omega)
      · exact Or.inl before
    · rw [switched] at inside
      simp only [Printk.atLetter] at inside
      exact Or.inr (by omega)

theorem Prints.copied {b : UInt8} {length count : Nat} {bytes : List UInt8}
    (rest : Prints ⟨state.p + 1, state.ap, state.p :: state.inspected,
      state.out.write b⟩ final length count bytes) :
    Prints state final (length + 1) count (b :: bytes) where
  ap := rest.ap
  out := rest.out
  inspected := by
    intro offset member
    rcases rest.inspected offset member with earlier | inside
    · rcases List.mem_cons.mp earlier with here | before
      · exact Or.inr (by omega)
      · exact Or.inl before
    · simp only at inside
      exact Or.inr (by omega)

theorem short_rest {limit : Nat} {argument : Argument}
    (short : ∀ bytes, .text bytes ∈ argument :: arguments →
      bytes.length < limit) :
    ∀ bytes, .text bytes ∈ arguments → bytes.length < limit :=
  fun bytes member => short bytes (List.mem_cons_of_mem _ member)

theorem printkSwitch_hexadecimal :
    printkSwitch mem words fuel asciiUpperX state =
      some { state with
        ap := state.ap + 1
        out := ttyWriteHex (words state.ap) state.out } := by
  rw [printkSwitch, if_pos rfl]

theorem printkSwitch_decimal :
    printkSwitch mem words fuel asciiU state =
      some { state with
        ap := state.ap + 1
        out := (ttyWriteInt (words state.ap) state.out).2 } := by
  rw [printkSwitch, if_neg (by decide), if_pos rfl]

theorem printkSwitch_percent :
    printkSwitch mem words fuel asciiPercent state =
      some { state with out := state.out.write asciiPercent } := by
  rw [printkSwitch, if_neg (by decide), if_neg (by decide),
    if_neg (by decide), if_pos rfl]

theorem printkSwitch_dropped {c : UInt8}
    (unknown : c ∉ [asciiUpperX, asciiU, asciiS, asciiPercent]) :
    printkSwitch mem words fuel c state = some state := by
  simp only [List.mem_cons, List.not_mem_nil, or_false, not_or] at unknown
  obtain ⟨notX, notU, notS, notPercent⟩ := unknown
  rw [printkSwitch, if_neg notX, if_neg notU, if_neg notS,
    if_neg notPercent]

theorem printkSwitch_s :
    printkSwitch mem words fuel asciiS state =
      (ttyWriteString mem fuel (words state.ap) state.out).map fun out =>
        { state with
          ap := state.ap + 1
          out := out } := by
  rw [printkSwitch, if_neg (by decide), if_neg (by decide), if_pos rfl]

theorem printkSwitch_string {bytes : List UInt8}
    (holds : HoldsString mem (words state.ap) bytes)
    (enough : bytes.length < fuel) :
    printkSwitch mem words fuel asciiS state =
      some { state with
        ap := state.ap + 1
        out := state.out.writeAll bytes } := by
  rw [printkSwitch_s, ttyWriteString_holds holds enough]
  rfl

theorem printkLoop_expands_conversion {c : UInt8} {count : Nat}
    (taken : Nat) (written : List UInt8)
    (holds : HoldsString mem (fmt + state.p) (asciiPercent :: c :: format))
    (enough : (asciiPercent :: c :: format).length < rounds)
    (switched : printkSwitch mem words fuel c state.atLetter =
      some { state.atLetter with
        ap := state.ap + taken
        out := state.out.writeAll written })
    (rest : ∀ (next : Printk) (fewer : Nat), next.ap = state.ap + taken →
      HoldsString mem (fmt + next.p) format → format.length < fewer →
      ∃ final, printkLoop mem words fmt fuel fewer next = some final ∧
        Prints next final format.length count expansion) :
    ∃ final, printkLoop mem words fmt fuel rounds state = some final ∧
      Prints state final (format.length + 2) (count + taken)
        (written ++ expansion) := by
  rw [List.length_cons, List.length_cons] at enough
  obtain ⟨rounds, rfl⟩ :=
    Nat.exists_eq_succ_of_ne_zero (show rounds ≠ 0 by omega)
  obtain ⟨here, _, letter, _, tail⟩ := holds
  obtain ⟨final, returned, prints⟩ := rest
    ⟨state.p + 2, state.ap + taken,
      (state.p + 1) :: state.p :: state.inspected,
      state.out.writeAll written⟩ rounds rfl tail (by omega)
  refine ⟨final, ?_, Prints.conversion rfl prints⟩
  rw [printkLoop_conversion here letter, switched]
  exact returned

/-- The code prints the reference expansion of a format whose last percent
sign is not left alone. -/
theorem printkLoop_expands (expands : Expands format arguments expansion)
    (paired : Even (trailingPercents format))
    (short : ∀ bytes, .text bytes ∈ arguments → bytes.length < fuel)
    (holds : HoldsString mem (fmt + state.p) format)
    (supplies : Supplies mem words state.ap arguments)
    (enough : format.length < rounds) :
    ∃ final, printkLoop mem words fmt fuel rounds state = some final ∧
      Prints state final format.length arguments.length expansion := by
  induction expands generalizing state rounds with
  | done =>
      obtain ⟨rounds, rfl⟩ :=
        Nat.exists_eq_succ_of_ne_zero (show rounds ≠ 0 by omega)
      refine ⟨state.inspect, printkLoop_done holds, rfl, rfl, ?_⟩
      intro offset member
      rcases List.mem_cons.mp member with here | earlier
      · exact Or.inr (Nat.le_of_eq here)
      · exact Or.inl earlier
  | @copy format _ _ b plain _ induction =>
      rw [trailingPercents_copy format plain] at paired
      rw [List.length_cons] at enough
      obtain ⟨rounds, rfl⟩ :=
        Nat.exists_eq_succ_of_ne_zero (show rounds ≠ 0 by omega)
      obtain ⟨here, notNul, tail⟩ := holds
      obtain ⟨final, returned, prints⟩ := @induction rounds
        ⟨state.p + 1, state.ap, state.p :: state.inspected,
          state.out.write b⟩ paired short tail supplies (by omega)
      refine ⟨final, ?_, prints.copied⟩
      rw [printkLoop_copy here notNul plain]
      exact returned
  | @hexadecimal format _ _ n _ induction =>
      rw [trailingPercents_conversion format (by decide)] at paired
      obtain ⟨value, later⟩ := supplies
      apply printkLoop_expands_conversion 1 (hexadecimal n) holds enough
      · rw [← value, ← ttyWriteHex_output]
        exact printkSwitch_hexadecimal
      · intro next fewer apEq tail below
        exact induction paired (short_rest short) tail (apEq ▸ later) below
  | @decimal format _ _ n _ induction =>
      rw [trailingPercents_conversion format (by decide)] at paired
      obtain ⟨value, later⟩ := supplies
      apply printkLoop_expands_conversion 1 (decimal n) holds enough
      · rw [← value, ← ttyWriteInt_output]
        exact printkSwitch_decimal
      · intro next fewer apEq tail below
        exact induction paired (short_rest short) tail (apEq ▸ later) below
  | @string format _ _ bytes _ induction =>
      rw [trailingPercents_conversion format (by decide)] at paired
      obtain ⟨string, later⟩ := supplies
      apply printkLoop_expands_conversion 1 bytes holds enough
      · exact printkSwitch_string string
          (short bytes (List.mem_cons_self ..))
      · intro next fewer apEq tail below
        exact induction paired (short_rest short) tail (apEq ▸ later) below
  | @percent format _ _ _ induction =>
      rw [trailingPercents_percent] at paired
      apply printkLoop_expands_conversion 0 [asciiPercent] holds enough
      · exact printkSwitch_percent
      · intro next fewer apEq tail below
        exact induction paired short tail (apEq ▸ supplies) below
  | @dropped format _ _ c unknown _ induction =>
      have plain : c ≠ asciiPercent := by
        rintro rfl
        exact unknown (by decide)
      rw [trailingPercents_conversion format plain] at paired
      apply printkLoop_expands_conversion 0 [] holds enough
      · exact printkSwitch_dropped unknown
      · intro next fewer apEq tail below
        exact induction paired short tail (apEq ▸ supplies) below
  | last => exact absurd paired (by decide)

/-! ## A percent sign left alone -/

theorem printkSwitch_frame {c : UInt8}
    (switched : printkSwitch mem words fuel c state = some next) :
    next.p = state.p ∧ next.inspected = state.inspected := by
  rw [printkSwitch] at switched
  split_ifs at switched
  · cases switched
    exact ⟨rfl, rfl⟩
  · cases switched
    exact ⟨rfl, rfl⟩
  · obtain ⟨out, _, rfl⟩ := Option.map_eq_some_iff.mp switched
    exact ⟨rfl, rfl⟩
  · cases switched
    exact ⟨rfl, rfl⟩
  · cases switched
    exact ⟨rfl, rfl⟩

/-- After a percent sign the loop goes on two bytes further, whatever the
second one is. -/
theorem printkLoop_conversion_returned
    (here : mem (w32 (fmt + state.p)) = asciiPercent)
    (returned : printkLoop mem words fmt fuel (rounds + 1) state =
      some final) :
    ∃ next, next.p = state.p + 2 ∧
      (∀ offset, offset ∈ state.p :: state.inspected →
        offset ∈ next.inspected) ∧
      printkLoop mem words fmt fuel rounds next = some final := by
  rw [printkLoop_conversion here rfl, Option.bind_eq_some_iff] at returned
  obtain ⟨next, switched, rest⟩ := returned
  obtain ⟨pEq, inspected⟩ := printkSwitch_frame switched
  refine ⟨{ next with p := next.p + 1 }, ?_, ?_, rest⟩
  · simp only [pEq, Printk.atLetter]
  · intro offset earlier
    rw [inspected]
    exact List.mem_cons_of_mem _ earlier

/-- The loop inspects the byte that it starts at, and forgets none. -/
theorem printkLoop_inspected
    (returned : printkLoop mem words fmt fuel rounds state = some final) :
    ∀ offset, offset ∈ state.p :: state.inspected →
      offset ∈ final.inspected := by
  induction rounds generalizing state with
  | zero => cases returned
  | succ rounds induction =>
      intro offset member
      by_cases atEnd : mem (w32 (fmt + state.p)) = 0
      · rw [printkLoop_done atEnd] at returned
        cases returned
        exact member
      · by_cases percent : mem (w32 (fmt + state.p)) = asciiPercent
        · obtain ⟨next, _, kept, rest⟩ :=
            printkLoop_conversion_returned percent returned
          exact induction rest offset
            (List.mem_cons_of_mem _ (kept offset member))
        · rw [printkLoop_copy rfl atEnd percent] at returned
          exact induction returned offset (List.mem_cons_of_mem _ member)

theorem printkLoop_overruns_conversion {c : UInt8}
    (holds : HoldsString mem (fmt + state.p) (asciiPercent :: c :: format))
    (returned : printkLoop mem words fmt fuel rounds state = some final)
    (rest : ∀ (next : Printk) (fewer : Nat),
      HoldsString mem (fmt + next.p) format →
      printkLoop mem words fmt fuel fewer next = some final →
      next.p + format.length + 1 ∈ final.inspected) :
    state.p + (asciiPercent :: c :: format).length + 1 ∈
      final.inspected := by
  cases rounds with
  | zero => cases returned
  | succ rounds =>
      obtain ⟨next, pEq, _, later⟩ :=
        printkLoop_conversion_returned holds.1 returned
      have reached := rest next rounds (pEq ▸ holds.2.2.2.2) later
      have position : state.p + (asciiPercent :: c :: format).length + 1 =
          next.p + format.length + 1 := by
        rw [pEq, List.length_cons, List.length_cons]
        omega
      rwa [position]

/-- Behind a percent sign that is left alone the loop steps over the NUL. -/
theorem printkLoop_overruns (expands : Expands format arguments expansion)
    (alone : ¬Even (trailingPercents format))
    (holds : HoldsString mem (fmt + state.p) format)
    (returned : printkLoop mem words fmt fuel rounds state = some final) :
    state.p + format.length + 1 ∈ final.inspected := by
  induction expands generalizing state rounds with
  | done => exact absurd (by decide) alone
  | @copy format _ _ b plain _ induction =>
      rw [trailingPercents_copy format plain] at alone
      obtain ⟨here, notNul, tail⟩ := holds
      cases rounds with
      | zero => cases returned
      | succ rounds =>
          rw [printkLoop_copy here notNul plain] at returned
          have reached := @induction rounds
            ⟨state.p + 1, state.ap, state.p :: state.inspected,
              state.out.write b⟩ alone tail returned
          rwa [List.length_cons, Nat.add_comm format.length,
            ← Nat.add_assoc]
  | @hexadecimal format _ _ n _ induction =>
      rw [trailingPercents_conversion format (by decide)] at alone
      refine printkLoop_overruns_conversion holds returned ?_
      intro next fewer tail later
      exact induction alone tail later
  | @decimal format _ _ n _ induction =>
      rw [trailingPercents_conversion format (by decide)] at alone
      refine printkLoop_overruns_conversion holds returned ?_
      intro next fewer tail later
      exact induction alone tail later
  | @string format _ _ bytes _ induction =>
      rw [trailingPercents_conversion format (by decide)] at alone
      refine printkLoop_overruns_conversion holds returned ?_
      intro next fewer tail later
      exact induction alone tail later
  | @percent format _ _ _ induction =>
      rw [trailingPercents_percent] at alone
      refine printkLoop_overruns_conversion holds returned ?_
      intro next fewer tail later
      exact induction alone tail later
  | @dropped format _ _ c unknown _ induction =>
      have plain : c ≠ asciiPercent := by
        rintro rfl
        exact unknown (by decide)
      rw [trailingPercents_conversion format plain] at alone
      refine printkLoop_overruns_conversion holds returned ?_
      intro next fewer tail later
      exact induction alone tail later
  | last =>
      cases rounds with
      | zero => cases returned
      | succ rounds =>
          obtain ⟨next, pEq, _, rest⟩ :=
            printkLoop_conversion_returned holds.1 returned
          rw [List.length_singleton, Nat.add_assoc, ← pEq]
          exact printkLoop_inspected rest _ (List.mem_cons_self ..)

theorem exists_textLimit (arguments : List Argument) :
    ∃ limit, ∀ bytes, .text bytes ∈ arguments → bytes.length < limit := by
  induction arguments with
  | nil => exact ⟨0, fun _ member => absurd member (List.not_mem_nil)⟩
  | cons argument arguments induction =>
      obtain ⟨limit, short⟩ := induction
      cases argument with
      | value n =>
          refine ⟨limit, fun bytes member => short bytes ?_⟩
          simpa using member
      | text first =>
          refine ⟨limit + first.length + 1, fun bytes member => ?_⟩
          rcases List.mem_cons.mp member with here | later
          · cases here
            omega
          · have below := short bytes later
            omega

/-- The call ends, reads no byte behind the format's NUL, takes exactly the
arguments, and writes exactly the expansion. -/
def PrintsFaithfully (mem : Nat → UInt8) (words : Nat → Nat) (fmt : Nat)
    (format : List UInt8) (arguments : List Argument)
    (expansion : List UInt8) (out : Output) : Prop :=
  ∃ enough, ∀ fuel, enough ≤ fuel →
    ∃ final, printk mem words fmt fuel out = some final ∧
      (∀ offset ∈ final.inspected, offset ≤ format.length) ∧
      final.ap = arguments.length ∧
      final.out.sent = out.sent ++ expansion ∧
      final.out.tty = ttyWriteBytes expansion out.tty

theorem PrintsFaithfully.paired {out : Output}
    (faithful : PrintsFaithfully mem words fmt format arguments expansion out)
    (holds : HoldsString mem fmt format)
    (expands : Expands format arguments expansion) :
    Even (trailingPercents format) := by
  obtain ⟨enough, runs⟩ := faithful
  obtain ⟨final, returned, inside, _⟩ := runs enough (Nat.le_refl enough)
  by_contra alone
  have reached := inside _ (@printkLoop_overruns mem words fmt enough enough
    ⟨0, 0, [], out⟩ final format arguments expansion expands alone holds
    returned)
  simp only at reached
  omega

/-- `printk` is faithful to every format that does not end in an odd number of
percent signs. -/
theorem printk_faithful_iff (holds : HoldsString mem fmt format)
    (expands : Expands format arguments expansion)
    (supplies : Supplies mem words 0 arguments) (out : Output) :
    PrintsFaithfully mem words fmt format arguments expansion out ↔
      Even (trailingPercents format) := by
  constructor
  · intro faithful
    exact faithful.paired holds expands
  · intro paired
    obtain ⟨limit, short⟩ := exists_textLimit arguments
    refine ⟨limit + format.length + 1, fun fuel enough => ?_⟩
    obtain ⟨final, returned, prints⟩ := @printkLoop_expands mem words fmt
      fuel fuel ⟨0, 0, [], out⟩ format arguments expansion expands paired
      (fun bytes member => by have below := short bytes member; omega)
      holds supplies (by omega)
    refine ⟨final, returned, ?_, ?_, ?_, ?_⟩
    · intro offset member
      rcases prints.inspected offset member with impossible | below
      · cases impossible
      · simpa using below
    · simpa using prints.ap
    · rw [prints.out, Output.writeAll_sent]
    · rw [prints.out, Output.writeAll_tty]

theorem printk_expands (expands : Expands format arguments expansion)
    (paired : Even (trailingPercents format))
    (holds : HoldsString mem fmt format)
    (supplies : Supplies mem words 0 arguments)
    (short : ∀ bytes, .text bytes ∈ arguments → bytes.length < fuel)
    (enough : format.length < fuel) (out : Output) :
    ∃ final, printk mem words fmt fuel out = some final ∧
      final.out = out.writeAll expansion := by
  obtain ⟨final, returned, prints⟩ := @printkLoop_expands mem words fmt
    fuel fuel ⟨0, 0, [], out⟩ format arguments expansion expands paired
    short holds supplies enough
  exact ⟨final, returned, prints.out⟩

/-- On a cleared screen the framebuffer is the window of the reference
terminal that has been given the expansion. -/
theorem PrintsFaithfully.shown {initial : Tty} {sent : List UInt8}
    (faithful : PrintsFaithfully mem words fmt format arguments expansion
      ⟨ttyClear initial, sent⟩) :
    ∃ fuel final, printk mem words fmt fuel ⟨ttyClear initial, sent⟩ =
        some final ∧
      Shows final.out.tty (Terminal.blank.writeAll expansion) := by
  obtain ⟨enough, runs⟩ := faithful
  obtain ⟨final, returned, _, _, _, tty⟩ := runs enough (Nat.le_refl enough)
  refine ⟨enough, final, returned, ?_⟩
  rw [tty]
  exact writeBytes_shows (clear_shows initial) expansion

end Runs

/-- Bytes have been written, and a screen that showed a terminal shows them on
it. -/
structure Output.Writes (out after : Output) (bytes : List UInt8) : Prop where
  sent : after.sent = out.sent ++ bytes
  shown : ∀ terminal, Shows out.tty terminal →
    Shows after.tty (terminal.writeAll bytes)

theorem Output.writes_writeAll (out : Output) (bytes : List UInt8) :
    out.Writes (out.writeAll bytes) bytes where
  sent := out.writeAll_sent bytes
  shown terminal shows_ := by
    rw [out.writeAll_tty bytes]
    exact writeBytes_shows shows_ bytes

/-- Memory that is zero but for one string. -/
def stringAt (s : Nat) (bytes : List UInt8) (address : Nat) : UInt8 :=
  if s ≤ address then bytes.getD (address - s) 0 else 0

theorem stringAt_byte {base : Nat} {before : List UInt8}
    (small : base + before.length < 2 ^ 32) (b : UInt8) (rest : List UInt8) :
    stringAt base (before ++ b :: rest) (w32 (base + before.length)) = b := by
  rw [w32_of_lt small, stringAt, if_pos (by omega), Nat.add_sub_cancel_left]
  simp

theorem stringAt_holdsString {base : Nat} {before bytes : List UInt8}
    (noNul : 0 ∉ bytes)
    (small : base + before.length + bytes.length < 2 ^ 32)
    (rest : List UInt8) :
    HoldsString (stringAt base (before ++ (bytes ++ 0 :: rest)))
      (base + before.length) bytes := by
  induction bytes generalizing before with
  | nil =>
      have nul := @stringAt_byte base before small 0 rest
      exact nul
  | cons b bytes induction =>
      obtain ⟨notNul, later⟩ := List.ne_and_not_mem_of_not_mem_cons noNul
      rw [List.length_cons] at small
      refine ⟨stringAt_byte (by omega) b (bytes ++ 0 :: rest),
        Ne.symm notNul, ?_⟩
      have moved : base + (before ++ [b]).length =
          base + before.length + 1 := by
        rw [List.length_append, List.length_singleton, Nat.add_assoc]
      have tail := @induction (before ++ [b]) later (by omega)
      rwa [moved, List.append_assoc, List.singleton_append] at tail

/-- `printk("%u%%", 42)` on a blank terminal. -/
theorem printk_faithful_iff_percentage :
    PrintsFaithfully (stringAt 8 (asciiBytes "%u%%")) (fun _ => 42) 8
      (asciiBytes "%u%%") [.value 42] (decimal 42 ++ [asciiPercent])
      ⟨zeroTty, []⟩ := by
  have holds : HoldsString (stringAt 8 (asciiBytes "%u%%")) 8
      (asciiBytes "%u%%") := by
    refine ⟨rfl, by decide, rfl, by decide, rfl, by decide, rfl, by decide,
      rfl⟩
  have expands : Expands (asciiBytes "%u%%") [.value 42]
      (decimal 42 ++ [asciiPercent]) := .decimal 42 (.percent .done)
  exact (printk_faithful_iff holds expands ⟨rfl, trivial⟩ ⟨zeroTty, []⟩).mpr
    (by decide)

/-- `printk("%")` runs past the end of its format. -/
theorem printk_overruns :
    HoldsString (stringAt 8 (asciiBytes "%")) 8 (asciiBytes "%") ∧
      Expands (asciiBytes "%") [] [] ∧
      ¬PrintsFaithfully (stringAt 8 (asciiBytes "%")) (fun _ => 0) 8
        (asciiBytes "%") [] [] ⟨zeroTty, []⟩ := by
  have holds : HoldsString (stringAt 8 (asciiBytes "%")) 8
      (asciiBytes "%") := ⟨rfl, by decide, rfl⟩
  have expands : Expands (asciiBytes "%") [] [] := .last
  refine ⟨holds, expands, ?_⟩
  intro faithful
  exact absurd (faithful.paired holds expands) (by decide)

end Newbos
