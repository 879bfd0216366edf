import Newbos.Tty.Printk

/-!
# The keyboard

The interrupt handler of the keyboard translates a scancode and hands the
character to `printk`, which takes it for the address of a string.
-/

namespace Newbos

/-- `keyboard_layout`; the entries behind these are 0 too. -/
def keyboardLayout : List UInt8 :=
  [0, 27] ++ asciiBytes "1234567890-=" ++ [8, 9] ++
    asciiBytes "qwertyuiop[]" ++ [10, 0] ++ asciiBytes "asdfghjkl;'`" ++
    [0] ++ asciiBytes "\\zxcvbnm,./" ++ [0] ++ asciiBytes "*" ++ [0] ++
    asciiBytes " " ++ List.replicate 16 0 ++ asciiBytes "-" ++ [0, 0, 0] ++
    asciiBytes "+" ++ List.replicate 49 0

/-- `keyboard_layout[scancode]`. -/
def keyboardKey (scancode : UInt8) : UInt8 :=
  keyboardLayout.getD scancode.toNat 0

/-- The top bit of the scancode of a released key is set. -/
def Released (scancode : UInt8) : Prop :=
  scancode &&& 0x80 ≠ 0

instance (scancode : UInt8) : Decidable (Released scancode) :=
  inferInstanceAs (Decidable (_ ≠ _))

/-- `keyboard_callback` when `inb` returns `scancode`; `literal` is the
address of its format. -/
def keyboardCallback (mem : Nat → UInt8) (literal fuel : Nat)
    (scancode : UInt8) (out : Output) : Option Output :=
  if Released scancode then some out
  else
    (printk mem (fun _ => (keyboardKey scancode).toNat) literal fuel out).map
      Printk.out

/-- Successive calls of `keyboard_callback`. -/
def keyboardCallbacks (mem : Nat → UInt8) (literal fuel : Nat)
    (scancodes : List UInt8) (out : Output) : Option Output :=
  scancodes.foldlM
    (fun out scancode => keyboardCallback mem literal fuel scancode out) out

/-- What a key should show: its character, if it is pressed and has one. -/
def keyboardEcho (scancode : UInt8) : List UInt8 :=
  if Released scancode ∨ keyboardKey scancode = 0 then []
  else [keyboardKey scancode]

/-- The string at the address that the key's character is taken for is the
character itself, or empty when the key has none. -/
def KeyReadsItself (mem : Nat → UInt8) (scancode : UInt8) : Prop :=
  ¬Released scancode →
    HoldsString mem (keyboardKey scancode).toNat (keyboardEcho scancode)

section Calls

variable {mem : Nat → UInt8} {literal fuel : Nat} {scancode : UInt8}
  {scancodes : List UInt8} {out after : Output}

theorem keyboardCallback_pressed (pressed : ¬Released scancode)
    (format : HoldsString mem literal (asciiBytes "%s")) {bytes : List UInt8}
    (holds : HoldsString mem (keyboardKey scancode).toNat bytes)
    (enough : bytes.length + 3 ≤ fuel) :
    keyboardCallback mem literal fuel scancode out =
      some (out.writeAll bytes) := by
  have expands : Expands (asciiBytes "%s") [.text bytes] (bytes ++ []) :=
    .string bytes .done
  obtain ⟨final, returned, prints⟩ := @printkLoop_expands mem
    (fun _ => (keyboardKey scancode).toNat) literal fuel fuel ⟨0, 0, [], out⟩
    _ _ _ expands (by decide)
    (fun other member => by
      cases List.mem_singleton.mp member
      omega)
    format ⟨holds, trivial⟩
    (by
      have length : (asciiBytes "%s").length = 2 := rfl
      omega)
  rw [keyboardCallback, if_neg pressed, printk, returned, Option.map_some,
    prints.out, List.append_nil]

theorem keyboardCallback_returned (pressed : ¬Released scancode)
    (format : HoldsString mem literal (asciiBytes "%s"))
    (returned : keyboardCallback mem literal fuel scancode out =
      some after) :
    ∃ bytes, HoldsString mem (keyboardKey scancode).toNat bytes ∧
      after = out.writeAll bytes := by
  have spelled : asciiBytes "%s" = [asciiPercent, asciiS] := by decide
  rw [spelled] at format
  obtain ⟨percent, _, letter, _, atEnd⟩ := format
  rw [keyboardCallback, if_neg pressed, Option.map_eq_some_iff] at returned
  obtain ⟨final, printed, rfl⟩ := returned
  cases fuel with
  | zero => cases printed
  | succ rounds =>
      rw [printk, printkLoop_conversion percent letter, printkSwitch_s,
        Option.bind_eq_some_iff] at printed
      obtain ⟨next, switched, rest⟩ := printed
      obtain ⟨written, returned, rfl⟩ := Option.map_eq_some_iff.mp switched
      obtain ⟨bytes, holds, rfl⟩ := ttyWriteString_returned returned
      refine ⟨bytes, holds, ?_⟩
      cases rounds with
      | zero => cases rest
      | succ rounds =>
          have nul : mem (w32 (literal + (0 + 1 + 1))) = 0 := atEnd
          rw [printkLoop_done nul] at rest
          cases rest
          rfl

theorem keyboardCallbacks_append (later : List UInt8) :
    keyboardCallbacks mem literal fuel (scancodes ++ later) out =
      (keyboardCallbacks mem literal fuel scancodes out).bind
        (keyboardCallbacks mem literal fuel later) := by
  rw [keyboardCallbacks, List.foldlM_append]
  rfl

/-- The calls end, and have sent what the keys should show. -/
def EchoesKeys (mem : Nat → UInt8) (literal : Nat) (scancodes : List UInt8)
    (out : Output) : Prop :=
  ∃ enough, ∀ fuel, enough ≤ fuel → ∃ after,
    keyboardCallbacks mem literal fuel scancodes out = some after ∧
      after.sent = out.sent ++ scancodes.flatMap keyboardEcho

theorem keyboardCallback_echo
    (format : HoldsString mem literal (asciiBytes "%s"))
    (readsItself : KeyReadsItself mem scancode) (enough : 4 ≤ fuel)
    (out : Output) :
    keyboardCallback mem literal fuel scancode out =
      some (out.writeAll (keyboardEcho scancode)) := by
  by_cases released : Released scancode
  · rw [keyboardCallback, if_pos released, keyboardEcho,
      if_pos (Or.inl released)]
    rfl
  · apply keyboardCallback_pressed released format (readsItself released)
    rw [keyboardEcho]
    split_ifs
    · exact Nat.le_trans (by decide) enough
    · exact enough

theorem keyboardCallbacks_echo
    (format : HoldsString mem literal (asciiBytes "%s"))
    (readThemselves : ∀ scancode ∈ scancodes, KeyReadsItself mem scancode)
    (enough : 4 ≤ fuel) (out : Output) :
    keyboardCallbacks mem literal fuel scancodes out =
      some (out.writeAll (scancodes.flatMap keyboardEcho)) := by
  induction scancodes generalizing out with
  | nil => rfl
  | cons scancode scancodes induction =>
      have first := keyboardCallback_echo format
        (readThemselves scancode (List.mem_cons_self ..)) enough out
      have rest := induction
        (fun other member =>
          readThemselves other (List.mem_cons_of_mem _ member))
        (out.writeAll (keyboardEcho scancode))
      rw [keyboardCallbacks, List.foldlM_cons, first, List.flatMap_cons,
        Output.writeAll_append]
      exact rest

/-- The key that comes last reads itself when the calls have echoed the keys
with and without it. -/
theorem EchoesKeys.last
    (format : HoldsString mem literal (asciiBytes "%s"))
    (before : EchoesKeys mem literal scancodes out)
    (with_ : EchoesKeys mem literal (scancodes ++ [scancode]) out) :
    KeyReadsItself mem scancode := by
  intro pressed
  obtain ⟨enough, runs⟩ := before
  obtain ⟨more, longerRuns⟩ := with_
  obtain ⟨middle, returned, sent⟩ :=
    runs (max enough more) (Nat.le_max_left ..)
  obtain ⟨after, longerReturned, longerSent⟩ :=
    longerRuns (max enough more) (Nat.le_max_right ..)
  rw [keyboardCallbacks_append, returned, Option.bind_some]
    at longerReturned
  have called : keyboardCallback mem literal (max enough more) scancode
      middle = some after := by
    simpa [keyboardCallbacks] using longerReturned
  obtain ⟨bytes, holds, rfl⟩ :=
    keyboardCallback_returned pressed format called
  rw [Output.writeAll_sent, sent, List.flatMap_append, List.flatMap_singleton,
    List.append_assoc] at longerSent
  have same := List.append_cancel_left (List.append_cancel_left longerSent)
  rwa [same] at holds

/-- The calls echo every sequence of keys, as far as it has gone, exactly when
every pressed key reads itself. -/
theorem keyboard_echo_iff
    (format : HoldsString mem literal (asciiBytes "%s"))
    (scancodes : List UInt8) (out : Output) :
    (∀ sofar, sofar <+: scancodes → EchoesKeys mem literal sofar out) ↔
      ∀ scancode ∈ scancodes, KeyReadsItself mem scancode := by
  constructor
  · intro echoes scancode member
    obtain ⟨before, later, rfl⟩ := List.append_of_mem member
    apply EchoesKeys.last format
    · exact echoes before (List.prefix_append ..)
    · apply echoes
      exact ⟨later, by simp⟩
  · rintro readThemselves sofar ⟨later, rfl⟩
    refine ⟨4, fun fuel enough => ?_⟩
    refine ⟨_, keyboardCallbacks_echo format ?_ enough out,
      Output.writeAll_sent ..⟩
    intro scancode member
    exact readThemselves scancode (List.mem_append_left _ member)

end Calls

/-- The format, and the character `a` at its own code. -/
def luckyMemory (address : Nat) : UInt8 :=
  if address = 97 then 97 else stringAt 4096 (asciiBytes "%s") address

/-- The key `a` is pressed and released. -/
theorem keyboard_echo_iff_lucky :
    EchoesKeys luckyMemory 4096 [0x1E, 0x9E] ⟨zeroTty, []⟩ := by
  have format : HoldsString luckyMemory 4096 (asciiBytes "%s") :=
    ⟨rfl, by decide, rfl, by decide, rfl⟩
  refine (keyboard_echo_iff format [0x1E, 0x9E] ⟨zeroTty, []⟩).mpr ?_ _
    (List.prefix_refl _)
  intro scancode member pressed
  have cases_ : scancode = 0x1E ∨ scancode = 0x9E := by simpa using member
  rcases cases_ with rfl | rfl
  · exact ⟨rfl, by decide, rfl⟩
  · exact absurd (by decide) pressed

/-- With zeros in low memory the key `a` shows nothing. -/
theorem keyboard_shows_nothing :
    HoldsString (stringAt 4096 (asciiBytes "%s")) 4096 (asciiBytes "%s") ∧
      ¬EchoesKeys (stringAt 4096 (asciiBytes "%s")) 4096 [0x1E]
        ⟨zeroTty, []⟩ := by
  have format : HoldsString (stringAt 4096 (asciiBytes "%s")) 4096
      (asciiBytes "%s") := ⟨rfl, by decide, rfl, by decide, rfl⟩
  refine ⟨format, fun echoes => ?_⟩
  have nothing : EchoesKeys (stringAt 4096 (asciiBytes "%s")) 4096 []
      ⟨zeroTty, []⟩ := ⟨0, fun _ _ => ⟨_, rfl, rfl⟩⟩
  have readsItself : KeyReadsItself (stringAt 4096 (asciiBytes "%s")) 0x1E :=
    EchoesKeys.last format nothing echoes
  have here := (readsItself (by decide)).1
  exact absurd here (by decide)

end Newbos
