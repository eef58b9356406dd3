import MaerOS.Model.Keyboard

/-!
# The keyboard driver: `classic.c` and `isr80h/io.c`

The handler of the keyboard interrupt turns scan codes into characters and pushes them
to the buffer of the current process; the system call takes them from there. The byte
that the handler reads from the port is its argument, the byte it reads after that is
ignored. A scan code one above the last entry of the table passes the check, and the
byte of memory behind the table is taken for its character: it is a parameter.
-/

set_option autoImplicit false

namespace MaerOS.Model

/-- `keyboard_scan_set_one`. `classic.c:21-36` -/
def keyboardScanSetOne : List (BitVec 8) := [
  0x00#8, 0x1b#8, 0x31#8, 0x32#8, 0x33#8, 0x34#8, 0x35#8,
  0x36#8, 0x37#8, 0x38#8, 0x39#8, 0x30#8, 0x2d#8, 0x3d#8,
  0x08#8, 0x09#8, 0x51#8, 0x57#8, 0x45#8, 0x52#8, 0x54#8,
  0x59#8, 0x55#8, 0x49#8, 0x4f#8, 0x50#8, 0x5b#8, 0x5d#8,
  0x0d#8, 0x00#8, 0x41#8, 0x53#8, 0x44#8, 0x46#8, 0x47#8,
  0x48#8, 0x4a#8, 0x4b#8, 0x4c#8, 0x3b#8, 0x27#8, 0x60#8,
  0x00#8, 0x5c#8, 0x5a#8, 0x58#8, 0x43#8, 0x56#8, 0x42#8,
  0x4e#8, 0x4d#8, 0x2c#8, 0x2e#8, 0x2f#8, 0x00#8, 0x2a#8,
  0x00#8, 0x20#8, 0x00#8, 0x00#8, 0x00#8, 0x00#8,
  0x00#8, 0x00#8, 0x00#8, 0x00#8, 0x00#8, 0x00#8,
  0x00#8, 0x37#8, 0x38#8, 0x39#8, 0x2d#8, 0x34#8, 0x35#8,
  0x36#8, 0x2b#8, 0x31#8, 0x32#8, 0x33#8, 0x30#8, 0x2e#8]

/-- `KEYBOARD_CAPS_LOCK_OFF`. `keyboard.h:5` -/
def keyboardCapsLockOff : ℤ := 0

/-- `KEYBOARD_CAPS_LOCK_ON`. `keyboard.h:4` -/
def keyboardCapsLockOn : ℤ := 1

/-- `CLASSIC_KEYBOARD_CAPSLOCK`. `classic.c:12` -/
def classicKeyboardCapslock : BitVec 8 := 0x3a#8

/-- `CLASSIC_KEYBOARD_KEY_RELEASED`. `classic.h:27` -/
def classicKeyboardKeyReleased : BitVec 8 := 0x80#8

/-- The keyboard buffers and the field `capslock_state` of `classic_keyboard`. -/
structure KeyboardDriver where
  keys : KeyboardKernel
  capslock_state : ℤ

/-- Code of the driver. -/
abbrev KeyboardDriverM := StateT KeyboardDriver Option

/-- Run code that uses the keyboard buffers. -/
def onKeys {α : Type} (m : KeyboardM α) : KeyboardDriverM α := fun s =>
  (m s.keys).map fun r => (r.1, { s with keys := r.2 })

/-- `classic_keyboard_init`, without the registration of the handler. `classic.c:47-57` -/
def classicKeyboardInit (s : KeyboardDriver) : KeyboardDriver :=
  { s with capslock_state := keyboardCapsLockOff }

/-- `classic_keyboard_scancode_to_char`; a `char` is signed. `classic.c:60-77` -/
def classicKeyboardScancodeToChar (behind : BitVec 8) (capslock_state : ℤ) (scancode : BitVec 8) :
    BitVec 8 :=
  if scancode.toNat > keyboardScanSetOne.length then 0#8
  else
    let c := (keyboardScanSetOne ++ [behind]).getD scancode.toNat 0#8
    if capslock_state = keyboardCapsLockOff then
      if 65 ≤ c.toInt ∧ c.toInt ≤ 90 then c + 32#8 else c
    else c

/-- `classic_keyboard_handle_interrupt`. `classic.c:79-105` -/
def classicKeyboardHandleInterrupt (behind scancode : BitVec 8) : KeyboardDriverM Unit := do
  if scancode &&& classicKeyboardKeyReleased ≠ 0#8 then pure ()
  else do
    (if scancode = classicKeyboardCapslock then
      modify fun s =>
        { s with
          capslock_state :=
            if s.capslock_state = keyboardCapsLockOn then keyboardCapsLockOff
            else keyboardCapsLockOn }
    else pure ())
    let s ← get
    let c := classicKeyboardScancodeToChar behind s.capslock_state scancode
    if c ≠ 0#8 then onKeys (keyboardPush c) else pure ()

/-- `isr80h_command2_getkey`; the character is sign-extended. `isr80h/io.c:19-23` -/
def isr80hCommand2Getkey : KeyboardDriverM (BitVec 32) := do
  let c ← onKeys keyboardPop
  pure (c.signExtend 32)

end MaerOS.Model
