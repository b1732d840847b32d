import Mathlib.Data.List.Basic

/-!
# Decoding the keyboard

`__am_input_keybrd` of the ysyxsoc port.  A poll reads PS/2 bytes until one of
them is a key code or the FIFO answers zero; the two static flags carry the
prefixes read so far from one poll to the next.

How the bytes fall into polls depends on when the FIFO runs empty, so the meaning
of a stream is defined without polls (`decode`): `decode_poll` says that a poll
decodes what it reads and leaves the rest to the next, `decode_filter` that empty
reads do not matter.

`keyboard_polls_events` is the result, for every list of events and every way of
running empty in between.
-/

namespace Riscv32.Am

/-! ## Key maps -/

/-- `AM_KEY_NONE` and `AM_KEYS`. -/
inductive AmKey
  | none
  | escape | f1 | f2 | f3 | f4 | f5 | f6 | f7 | f8 | f9 | f10 | f11 | f12
  | grave | k1 | k2 | k3 | k4 | k5 | k6 | k7 | k8 | k9 | k0 | minus | equals | backspace
  | tab | q | w | e | r | t | y | u | i | o | p | leftbracket | rightbracket | backslash
  | capslock | a | s | d | f | g | h | j | k | l | semicolon | apostrophe | return
  | lshift | z | x | c | v | b | n | m | comma | period | slash | rshift
  | lctrl | application | lalt | space | ralt | rctrl
  | up | down | left | right | insert | delete | home | «end» | pageup | pagedown
deriving DecidableEq, Repr

/-- The initializers of `keymap`. -/
def keymapEntries : List (BitVec 8 × AmKey) :=
  [(0x76, .escape), (0x05, .f1), (0x06, .f2), (0x04, .f3), (0x0c, .f4), (0x03, .f5),
   (0x0b, .f6), (0x83, .f7), (0x0a, .f8), (0x01, .f9), (0x09, .f10), (0x78, .f11),
   (0x07, .f12),
   (0x0e, .grave), (0x16, .k1), (0x1e, .k2), (0x26, .k3), (0x25, .k4), (0x2e, .k5),
   (0x36, .k6), (0x3d, .k7), (0x3e, .k8), (0x46, .k9), (0x45, .k0), (0x4e, .minus),
   (0x55, .equals), (0x66, .backspace),
   (0x0d, .tab), (0x15, .q), (0x1d, .w), (0x24, .e), (0x2d, .r), (0x2c, .t), (0x35, .y),
   (0x3c, .u), (0x43, .i), (0x44, .o), (0x4d, .p), (0x54, .leftbracket),
   (0x5b, .rightbracket), (0x5d, .backslash),
   (0x58, .capslock), (0x1c, .a), (0x1b, .s), (0x23, .d), (0x2b, .f), (0x34, .g), (0x33, .h),
   (0x3b, .j), (0x42, .k), (0x4b, .l), (0x4c, .semicolon), (0x52, .apostrophe),
   (0x5a, .return),
   (0x12, .lshift), (0x1a, .z), (0x22, .x), (0x21, .c), (0x2a, .v), (0x32, .b), (0x31, .n),
   (0x3a, .m), (0x41, .comma), (0x49, .period), (0x4a, .slash), (0x59, .rshift),
   (0x14, .lctrl), (0x11, .lalt), (0x29, .space)]

/-- The initializers of `ext_keymap`. -/
def extKeymapEntries : List (BitVec 8 × AmKey) :=
  [(0x14, .rctrl), (0x11, .ralt),
   (0x75, .up), (0x72, .down), (0x6b, .left), (0x74, .right),
   (0x70, .insert), (0x71, .delete), (0x6c, .home), (0x69, .end), (0x7d, .pageup),
   (0x7a, .pagedown),
   (0x2f, .application)]

/-- An array of key numbers; what has no initializer is `AM_KEY_NONE`. -/
def keyOf (entries : List (BitVec 8 × AmKey)) (code : BitVec 8) : AmKey :=
  (entries.lookup code).getD .none

def keymap (code : BitVec 8) : AmKey := keyOf keymapEntries code
def extKeymap (code : BitVec 8) : AmKey := keyOf extKeymapEntries code

/-- The map a code is looked up in. -/
def mapFor (extended : Bool) (code : BitVec 8) : AmKey :=
  if extended then extKeymap code else keymap code

/-! ## Polls -/

/-- `AM_INPUT_KEYBRD_T`. -/
structure Kbd where
  keydown : Bool
  keycode : AmKey
deriving DecidableEq, Repr

/-- The static variables of `__am_input_keybrd`. -/
structure Prefixes where
  breakCode : Bool
  extended : Bool
deriving DecidableEq, Repr

/-- The flags at reset and after every key. -/
def Prefixes.clear : Prefixes := ⟨false, false⟩

/-- What a poll leaves behind. -/
structure Polled where
  kbd : Kbd
  flags : Prefixes
  fifo : List (BitVec 8)
deriving DecidableEq, Repr

/-- `__am_input_keybrd`.  `fifo` holds what `inb` returns from now on; after its
last byte the device answers zero. -/
def amInputKeybrd (flags : Prefixes) : List (BitVec 8) → Polled
  | [] => ⟨⟨false, .none⟩, flags, []⟩
  | code :: fifo =>
      if code = 0#8 then ⟨⟨false, .none⟩, flags, fifo⟩
      else if code = 0xe0#8 then amInputKeybrd { flags with extended := true } fifo
      else if code = 0xf0#8 then amInputKeybrd { flags with breakCode := true } fifo
      else ⟨⟨!flags.breakCode, mapFor flags.extended code⟩, .clear, fifo⟩

/-- The results of `n` polls, one after the other. -/
def polls (flags : Prefixes) (fifo : List (BitVec 8)) : Nat → List Kbd
  | 0 => []
  | n + 1 =>
      let r := amInputKeybrd flags fifo
      r.kbd :: polls r.flags r.fifo n

/-- The results that name a key. -/
def keysOf (results : List Kbd) : List Kbd := results.filter (·.keycode ≠ .none)

/-! ## Key events -/

/-- A press or release of a key that the maps know. -/
structure KeyEvent where
  extended : Bool
  code : BitVec 8
  keydown : Bool
  mapped : mapFor extended code ≠ .none

namespace KeyEvent

/-- `(keycode, keydown)` of an event. -/
def kbd (e : KeyEvent) : Kbd := ⟨e.keydown, mapFor e.extended e.code⟩

/-- The bytes the keyboard sends for an event. -/
def encode (e : KeyEvent) : List (BitVec 8) :=
  (if e.extended then [0xe0#8] else []) ++ (if e.keydown then [] else [0xf0#8]) ++ [e.code]

/-- No key has the code of an empty read or of a prefix. -/
theorem code_plain (e : KeyEvent) : e.code ≠ 0#8 ∧ e.code ≠ 0xe0#8 ∧ e.code ≠ 0xf0#8 := by
  have hNone : ∀ ext, mapFor ext 0#8 = .none ∧ mapFor ext 0xe0#8 = .none ∧
      mapFor ext 0xf0#8 = .none := by decide
  have hMapped := e.mapped
  refine ⟨?_, ?_, ?_⟩ <;> intro hCode <;> rw [hCode] at hMapped
  · exact hMapped (hNone e.extended).1
  · exact hMapped (hNone e.extended).2.1
  · exact hMapped (hNone e.extended).2.2

end KeyEvent

/-! ## The byte stream as a whole -/

/-- What the bytes of a stream decode to, whatever polls read them. -/
def decode (flags : Prefixes) : List (BitVec 8) → List Kbd
  | [] => []
  | code :: rest =>
      if code = 0#8 then decode flags rest
      else if code = 0xe0#8 then decode { flags with extended := true } rest
      else if code = 0xf0#8 then decode { flags with breakCode := true } rest
      else ⟨!flags.breakCode, mapFor flags.extended code⟩ :: decode .clear rest

/-- A poll decodes what it reads and leaves the rest of the stream to the next. -/
theorem decode_poll (flags : Prefixes) (fifo : List (BitVec 8)) :
    keysOf (decode flags fifo) = keysOf [(amInputKeybrd flags fifo).kbd] ++
      keysOf (decode (amInputKeybrd flags fifo).flags (amInputKeybrd flags fifo).fifo) := by
  induction fifo generalizing flags with
  | nil => rfl
  | cons code fifo ih =>
      simp only [decode, amInputKeybrd]
      split_ifs
      · simp [keysOf]
      · exact ih _
      · exact ih _
      · simp [keysOf, List.filter_cons]
        split_ifs <;> rfl

/-- A poll of a FIFO that holds something takes at least one byte. -/
theorem poll_length (flags : Prefixes) (fifo : List (BitVec 8)) :
    (amInputKeybrd flags fifo).fifo.length ≤ fifo.length - 1 := by
  induction fifo generalizing flags with
  | nil => simp [amInputKeybrd]
  | cons code fifo ih =>
      have hLess : fifo.length - 1 ≤ (code :: fifo).length - 1 := by
        simp only [List.length_cons]
        omega
      simp only [amInputKeybrd]
      split_ifs
      · simp
      · exact Nat.le_trans (ih _) hLess
      · exact Nat.le_trans (ih _) hLess
      · simp

/-- Polls give the keys of the stream in order, all of them once it is read. -/
theorem keysOf_polls (flags : Prefixes) (fifo : List (BitVec 8)) (n : Nat) :
    keysOf (polls flags fifo n) <+: keysOf (decode flags fifo) ∧
      (fifo.length ≤ n → keysOf (polls flags fifo n) = keysOf (decode flags fifo)) := by
  induction n generalizing flags fifo with
  | zero =>
      refine ⟨List.nil_prefix, fun hLength => ?_⟩
      rw [List.length_eq_zero_iff.1 (Nat.le_zero.1 hLength)]
      rfl
  | succ n ih =>
      have hSplit : keysOf (polls flags fifo (n + 1)) = keysOf [(amInputKeybrd flags fifo).kbd] ++
          keysOf (polls (amInputKeybrd flags fifo).flags (amInputKeybrd flags fifo).fifo n) := by
        rw [keysOf, keysOf, keysOf, ← List.filter_append]
        rfl
      have hLeft := poll_length flags fifo
      have hRest := ih (amInputKeybrd flags fifo).flags (amInputKeybrd flags fifo).fifo
      rw [hSplit, decode_poll]
      refine ⟨(List.prefix_append_right_inj _).2 hRest.1, fun hLength => ?_⟩
      rw [hRest.2 (by omega)]

/-- Empty reads do not matter, wherever they are. -/
theorem decode_filter (flags : Prefixes) (fifo : List (BitVec 8)) :
    decode flags (fifo.filter (· ≠ 0#8)) = decode flags fifo := by
  induction fifo generalizing flags with
  | nil => rfl
  | cons code fifo ih =>
      by_cases hZero : code = 0
      · rw [List.filter_cons_of_neg (by simpa using hZero), ih]
        simp [decode, hZero]
      · rw [List.filter_cons_of_pos (by simpa using hZero)]
        simp only [decode, ih]

section Codes

variable (flags : Prefixes) (rest : List (BitVec 8))

theorem decode_extended :
    decode flags (0xe0#8 :: rest) = decode { flags with extended := true } rest := by
  simp [decode]

theorem decode_break :
    decode flags (0xf0#8 :: rest) = decode { flags with breakCode := true } rest := by
  simp [decode]

theorem decode_code (e : KeyEvent) : decode flags (e.code :: rest) =
    ⟨!flags.breakCode, mapFor flags.extended e.code⟩ :: decode .clear rest := by
  obtain ⟨hZero, hExt, hBreak⟩ := e.code_plain
  rw [decode, if_neg hZero, if_neg hExt, if_neg hBreak]

/-- The bytes of an event decode to the event and leave the flags clear. -/
theorem decode_encode (e : KeyEvent) :
    decode .clear (e.encode ++ rest) = e.kbd :: decode .clear rest := by
  cases hExt : e.extended <;> cases hDown : e.keydown <;>
    simp [KeyEvent.encode, KeyEvent.kbd, hExt, hDown, decode_extended, decode_break,
      decode_code, Prefixes.clear]

end Codes

theorem decode_events (events : List KeyEvent) :
    decode .clear (events.flatMap KeyEvent.encode) = events.map KeyEvent.kbd := by
  induction events with
  | nil => rfl
  | cons e events ih => rw [List.flatMap_cons, decode_encode, ih, List.map_cons]

/-- **Keyboard polls return the events typed.**  With empty reads anywhere in
the stream, the keys of the first polls are the first events; once the stream
is read they are all of them. -/
theorem keyboard_polls_events (events : List KeyEvent) (fifo : List (BitVec 8))
    (hFifo : fifo.filter (· ≠ 0#8) = events.flatMap KeyEvent.encode) (n : Nat) :
    keysOf (polls .clear fifo n) <+: events.map KeyEvent.kbd ∧
      (fifo.length ≤ n → keysOf (polls .clear fifo n) = events.map KeyEvent.kbd) := by
  have hDecode : keysOf (decode .clear fifo) = events.map KeyEvent.kbd := by
    rw [← decode_filter, hFifo, decode_events]
    refine List.filter_eq_self.2 fun k hk => ?_
    obtain ⟨e, -, rfl⟩ := List.mem_map.1 hk
    exact decide_eq_true e.mapped
  rw [← hDecode]
  exact keysOf_polls .clear fifo n

/-- The right arrow is pressed and released, then `A` pressed; the FIFO runs
empty inside the prefixes. -/
theorem keyboard_polls_arrow :
    keysOf (polls .clear [0xe0, 0x00, 0x74, 0xe0, 0xf0, 0x00, 0x00, 0x74, 0x1c] 9) =
      [⟨true, .right⟩, ⟨false, .right⟩, ⟨true, .a⟩] :=
  (keyboard_polls_events
    [⟨true, 0x74, true, by decide⟩, ⟨true, 0x74, false, by decide⟩, ⟨false, 0x1c, true, by decide⟩]
    _ rfl 9).2 (Nat.le_refl 9)

end Riscv32.Am
