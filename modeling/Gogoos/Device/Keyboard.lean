import Mathlib.Tactic

/-!
# The keyboard

The interrupt handler of `device/keyboard.c`, byte by byte, beside the keys that are down.
What it passes to `ioQueuePutChar` is its second value.
-/

namespace Gogoos

/-- The static flags of the driver. -/
structure Keyboard where
  ctrlStatus : Bool
  shiftStatus : Bool
  altStatus : Bool
  capsLockStatus : Bool
  extScanCode : Bool
  deriving DecidableEq

namespace Keyboard

section Codes

def ctrlLMake : ℕ := 0x1d
def ctrlRMake : ℕ := 0xe01d
def shiftLMake : ℕ := 0x2a
def shiftRMake : ℕ := 0x36
def altLMake : ℕ := 0x38
def altRMake : ℕ := 0xe038
def capsLockMake : ℕ := 0x3a

def ctrlLBreak : ℕ := 0x9d
def ctrlRBreak : ℕ := 0xe09d
def shiftLBreak : ℕ := 0xaa
def shiftRBreak : ℕ := 0xb6
def altLBreak : ℕ := 0xb8
def altRBreak : ℕ := 0xe0b8
def capsLockBreak : ℕ := 0xba

/-- `CHAR_INVISIBLE`. -/
def invisible : Char := Char.ofNat 0

def esc : Char := Char.ofNat 0x1b
def backspace : Char := Char.ofNat 8
def tab : Char := Char.ofNat 9
def enter : Char := Char.ofNat 0xd
def quote : Char := Char.ofNat 39
def doubleQuote : Char := Char.ofNat 34
def grave : Char := Char.ofNat 96
def backslash : Char := Char.ofNat 92

def keymap : List (Char × Char) :=
  [(invisible, invisible), (esc, esc), ('1', '!'), ('2', '@'), ('3', '#'), ('4', '$'), ('5', '%'),
   ('6', '^'), ('7', '&'), ('8', '*'), ('9', '('), ('0', ')'), ('-', '_'), ('=', '+'),
   (backspace, backspace), (tab, tab), ('q', 'Q'), ('w', 'W'), ('e', 'E'), ('r', 'R'), ('t', 'T'),
   ('y', 'Y'), ('u', 'U'), ('i', 'I'), ('o', 'O'), ('p', 'P'), ('[', '{'), (']', '}'),
   (enter, enter), (invisible, invisible), ('a', 'A'), ('s', 'S'), ('d', 'D'), ('f', 'F'),
   ('g', 'G'), ('h', 'H'), ('j', 'J'), ('k', 'K'), ('l', 'L'), (';', ':'), (quote, doubleQuote),
   (grave, '~'), (invisible, invisible), (backslash, '|'), ('z', 'Z'), ('x', 'X'), ('c', 'C'),
   ('v', 'V'), ('b', 'B'), ('n', 'N'), ('m', 'M'), (',', '<'), ('.', '>'), ('/', '?'),
   (invisible, invisible), ('*', '*'), (invisible, invisible), (' ', ' '), (invisible, invisible)]

end Codes

section Handler

/-- Both columns of the keys for which Caps Lock makes no difference to the code. -/
def unchangedByCapsLock (scanCode : ℕ) : Bool :=
  scanCode < 0x0e ∨ scanCode = 0x29 ∨ scanCode = 0x1a ∨ scanCode = 0x1b ∨ scanCode = 0x2b ∨
    scanCode = 0x27 ∨ scanCode = 0x28 ∨ scanCode = 0x33 ∨ scanCode = 0x34 ∨ scanCode = 0x35

/-- The default case of the switch: the character, and `CHAR_INVISIBLE` for none. -/
def keyChar (k : Keyboard) (scanCode : ℕ) : Char :=
  let shift := k.shiftStatus
  let shift := if k.capsLockStatus ∧ ¬unchangedByCapsLock scanCode then !shift else shift
  let row := keymap.getD (scanCode &&& 0x00ff) (invisible, invisible)
  let c := if shift then row.2 else row.1
  if k.ctrlStatus then
    let c := if c = 'l' ∨ c = 'L' then Char.ofNat ('l'.toNat - 'a'.toNat) else c
    if c = 'u' ∨ c = 'U' then Char.ofNat ('u'.toNat - 'a'.toNat) else c
  else c

/-- The switch over the make codes. `CAPS_LOCK_BREAK` never comes here. -/
def handleMake (k : Keyboard) (scanCode : ℕ) : Keyboard × Option UInt8 :=
  if scanCode = shiftLMake ∨ scanCode = shiftRMake then ({ k with shiftStatus := true }, none)
  else if scanCode = ctrlLMake ∨ scanCode = ctrlRMake then ({ k with ctrlStatus := true }, none)
  else if scanCode = altLMake ∨ scanCode = altRMake then ({ k with altStatus := true }, none)
  else if scanCode = capsLockMake then
    (if ¬k.capsLockStatus then { k with capsLockStatus := true } else k, none)
  else if scanCode = capsLockBreak then
    (if k.capsLockStatus then { k with capsLockStatus := false } else k, none)
  else
    let c := keyChar k scanCode
    (k, if c ≠ invisible then some c.toNat.toUInt8 else none)

def handleBreak (k : Keyboard) (scanCode : ℕ) : Keyboard :=
  if scanCode = ctrlLBreak ∨ scanCode = ctrlRBreak then { k with ctrlStatus := false }
  else if scanCode = shiftLBreak ∨ scanCode = shiftRBreak then { k with shiftStatus := false }
  else if scanCode = altLBreak ∨ scanCode = altRBreak then { k with altStatus := false }
  else k

/-- `byte` is what the controller sends. -/
def intrKeyBoardHandler (k : Keyboard) (byte : ℕ) : Keyboard × Option UInt8 :=
  if byte = 0xe0 then ({ k with extScanCode := true }, none)
  else
    let scanCode := if k.extScanCode then 0xe800 ||| byte else byte
    let k := if k.extScanCode then { k with extScanCode := false } else k
    if scanCode &&& 0x0080 ≠ 0 then (handleBreak k scanCode, none)
    else if (0 < scanCode ∧ scanCode ≤ 0x3a) ∨ scanCode = ctrlRMake ∨ scanCode = altRMake then
      handleMake k scanCode
    else (k, none)

def keyBoardInit : Keyboard := ⟨false, false, false, false, false⟩

end Handler

section Keys

/-- A key by its make code, with or without prefix. The break code of `0x60` would be the
prefix. -/
structure Key where
  ext : Bool
  code : ℕ
  pos : 0 < code
  lt : code < 0x80
  ne : code ≠ 0x60
  deriving DecidableEq

/-- A key is pressed (again) or let go. -/
structure KeyEvent where
  key : Key
  down : Bool

/-- The bytes that the controller sends. -/
def KeyEvent.bytes (ev : KeyEvent) : List ℕ :=
  (if ev.key.ext then [0xe0] else []) ++ [if ev.down then ev.key.code else ev.key.code + 0x80]

def shiftL : Key := ⟨false, 0x2a, by decide, by decide, by decide⟩
def shiftR : Key := ⟨false, 0x36, by decide, by decide, by decide⟩
def ctrlL : Key := ⟨false, 0x1d, by decide, by decide, by decide⟩
def ctrlR : Key := ⟨true, 0x1d, by decide, by decide, by decide⟩
def altL : Key := ⟨false, 0x38, by decide, by decide, by decide⟩
def altR : Key := ⟨true, 0x38, by decide, by decide, by decide⟩
def capsLock : Key := ⟨false, 0x3a, by decide, by decide, by decide⟩

/-- What a user knows of the keys. -/
structure Keys where
  down : Key → Bool
  /-- How often Caps Lock was pressed. A make code that repeats is no new press. -/
  capsPresses : ℕ
  /-- Whether the last code of a Shift key was a break code. -/
  shiftReleased : Bool

def Keys.next (s : Keys) (ev : KeyEvent) : Keys where
  down := fun k => if ev.key = k then ev.down else s.down k
  capsPresses :=
    if ev.key = capsLock ∧ ev.down ∧ ¬s.down capsLock then s.capsPresses + 1 else s.capsPresses
  shiftReleased := if ev.key = shiftL ∨ ev.key = shiftR then !ev.down else s.shiftReleased

def keysAfter (es : List KeyEvent) : Keys := es.foldl Keys.next ⟨fun _ => false, 0, false⟩

/-- The flags after the bytes of a sequence. -/
def runBytes (k : Keyboard) (bytes : List ℕ) : Keyboard :=
  bytes.foldl (fun k byte => (intrKeyBoardHandler k byte).1) k

def keyboardAfter (es : List KeyEvent) : Keyboard :=
  runBytes keyBoardInit (es.flatMap KeyEvent.bytes)

end Keys

section Law

variable {k : Keyboard} {s : Keys} {es : List KeyEvent} {key : Key} {down : Bool}

/-- The keymap has a character for the key. -/
def Printable (key : Key) : Prop :=
  key.ext = false ∧ (keymap.getD key.code (invisible, invisible)).1 ≠ invisible

/-- Whether Caps Lock chooses the column of a key. -/
def isLetter (code : ℕ) : Bool :=
  let c := (keymap.getD code (invisible, invisible)).1
  'a' ≤ c ∧ c ≤ 'z'

/-- The character of a key while Shift and Ctrl are down and Caps Lock is on, or not. The control
character of a letter is its place in the alphabet, counted from 0. -/
def charFor (shift caps ctrl : Bool) (code : ℕ) : Char :=
  let row := keymap.getD code (invisible, invisible)
  let c := if (if isLetter code then shift != caps else shift) then row.2 else row.1
  if ctrl ∧ (c = 'l' ∨ c = 'L') then Char.ofNat 11
  else if ctrl ∧ (c = 'u' ∨ c = 'U') then Char.ofNat 20
  else c

def shiftDown (s : Keys) : Bool := s.down shiftL || s.down shiftR
def ctrlDown (s : Keys) : Bool := s.down ctrlL || s.down ctrlR
def altDown (s : Keys) : Bool := s.down altL || s.down altR

/-- Caps Lock was pressed an odd number of times. -/
def capsOn (s : Keys) : Bool := s.capsPresses % 2 = 1

/-- The driver knows which modifiers are down, and the key that is pressed next is queued as the
character that the keymap has for them. -/
structure KeyboardLaw (es : List KeyEvent) : Prop where
  shift : (keyboardAfter es).shiftStatus = shiftDown (keysAfter es)
  ctrl : (keyboardAfter es).ctrlStatus = ctrlDown (keysAfter es)
  alt : (keyboardAfter es).altStatus = altDown (keysAfter es)
  caps : (keyboardAfter es).capsLockStatus = capsOn (keysAfter es)
  char : ∀ key, Printable key → (intrKeyBoardHandler (keyboardAfter es) key.code).2 =
    some (charFor (shiftDown (keysAfter es)) (capsOn (keysAfter es)) (ctrlDown (keysAfter es))
      key.code).toNat.toUInt8

/-- The right Ctrl and Alt keys are only down beside the left ones, a Shift key was not let go
while the other one was down, and Caps Lock is on or was never pressed. -/
structure Plain (s : Keys) : Prop where
  shift : s.shiftReleased = true → s.down shiftL = false ∧ s.down shiftR = false
  ctrl : s.down ctrlR = true → s.down ctrlL = true
  alt : s.down altR = true → s.down altL = true
  caps : s.capsPresses = 0 ∨ s.capsPresses % 2 = 1

/-- What the code of a key without prefix does to the flags. -/
theorem handler_plain : ∀ c < 128, 0 < c → c ≠ 0x60 → ∀ ctrl shift alt caps down : Bool,
    (intrKeyBoardHandler ⟨ctrl, shift, alt, caps, false⟩ (if down then c else c + 0x80)).1 =
      ⟨if c = 0x1d then down else ctrl, if c = 0x2a ∨ c = 0x36 then down else shift,
        if c = 0x38 then down else alt, caps || (c = 0x3a && down), false⟩ := by
  decide +kernel

/-- The code behind a prefix is none that the driver knows. -/
theorem handler_ext : ∀ c < 128, 0 < c → c ≠ 0x60 → ∀ ctrl shift alt caps down : Bool,
    (intrKeyBoardHandler ⟨ctrl, shift, alt, caps, true⟩ (if down then c else c + 0x80)).1 =
      ⟨ctrl, shift, alt, caps, false⟩ := by
  decide +kernel

theorem handler_char : ∀ c < 128, (keymap.getD c (invisible, invisible)).1 ≠ invisible →
    ∀ ctrl shift alt caps : Bool, (intrKeyBoardHandler ⟨ctrl, shift, alt, caps, false⟩ c).2 =
      some (charFor shift caps ctrl c).toNat.toUInt8 := by
  decide +kernel

/-- The state of the driver between two events, by the keys. -/
structure Follows (k : Keyboard) (s : Keys) : Prop where
  ext : k.extScanCode = false
  ctrl : k.ctrlStatus = s.down ctrlL
  alt : k.altStatus = s.down altL
  caps : k.capsLockStatus = decide (0 < s.capsPresses)
  pressed : s.down capsLock = true → 0 < s.capsPresses
  shift : k.shiftStatus = (!s.shiftReleased && (s.down shiftL || s.down shiftR))

theorem Follows.eq (h : Follows k s) : k = ⟨s.down ctrlL,
    !s.shiftReleased && (s.down shiftL || s.down shiftR), s.down altL,
    decide (0 < s.capsPresses), false⟩ := by
  obtain ⟨ctrl, shift, alt, caps, ext⟩ := k
  obtain ⟨hext, hctrl, halt, hcaps, -, hshift⟩ := h
  dsimp only at hext hctrl halt hcaps hshift
  rw [hext, hctrl, halt, hcaps, hshift]

/-- A key is known by its prefix and code. -/
theorem key_eq {key' : Key} : key = key' ↔ key.ext = key'.ext ∧ key.code = key'.code := by
  constructor
  · rintro rfl
    exact ⟨rfl, rfl⟩
  · obtain ⟨ext, code, _, _, _⟩ := key
    obtain ⟨ext', code', _, _, _⟩ := key'
    rintro ⟨rfl, rfl⟩
    rfl

/-- The flags after the bytes of one event. -/
theorem runBytes_event {ctrl shift alt caps : Bool} :
    runBytes ⟨ctrl, shift, alt, caps, false⟩ (KeyEvent.bytes ⟨key, down⟩) =
      ⟨if key = ctrlL then down else ctrl, if key = shiftL ∨ key = shiftR then down else shift,
        if key = altL then down else alt, caps || (key = capsLock && down), false⟩ := by
  obtain ⟨ext, code, hpos, hlt, hne⟩ := key
  simp only [key_eq, ctrlL, shiftL, shiftR, altL, capsLock]
  cases ext with
  | false =>
    change (intrKeyBoardHandler _ (if down then code else code + 0x80)).1 = _
    rw [handler_plain code hlt hpos hne]
    simp
  | true =>
    change (intrKeyBoardHandler ⟨ctrl, shift, alt, caps, true⟩
      (if down then code else code + 0x80)).1 = _
    rw [handler_ext code hlt hpos hne]
    simp

/-- A step of the driver follows a step of the keys. -/
theorem Follows.next (h : Follows k s) (ev : KeyEvent) :
    Follows (runBytes k ev.bytes) (s.next ev) := by
  obtain ⟨key, down⟩ := ev
  rw [h.eq, runBytes_event]
  refine ⟨rfl, ?_, ?_, ?_, ?_, ?_⟩
  · simp [Keys.next]
  · simp [Keys.next]
  · have hpressed := h.pressed
    by_cases hk : key = capsLock <;> cases down <;> cases hd : s.down capsLock <;>
      simp_all [Keys.next]
  · have hpressed := h.pressed
    by_cases hk : key = capsLock <;> cases down <;> cases hd : s.down capsLock <;>
      simp_all [Keys.next]
  · by_cases hl : key = shiftL
    · subst hl
      cases down <;> simp [Keys.next]
    · by_cases hr : key = shiftR
      · subst hr
        cases down <;> simp [Keys.next]
      · simp [Keys.next, hl, hr]

theorem follows_after (es : List KeyEvent) : Follows (keyboardAfter es) (keysAfter es) := by
  induction es using List.reverseRecOn with
  | nil => exact ⟨rfl, rfl, rfl, rfl, by simp [keysAfter], rfl⟩
  | append_singleton es ev ih =>
    have hkeys : keysAfter (es ++ [ev]) = (keysAfter es).next ev := by
      simp [keysAfter]
    have hboard : keyboardAfter (es ++ [ev]) = runBytes (keyboardAfter es) ev.bytes := by
      simp [keyboardAfter, runBytes]
    rw [hkeys, hboard]
    exact ih.next ev

/-- The driver knows the modifiers exactly after the sequences that are plain. -/
theorem keyboard_law (es : List KeyEvent) : KeyboardLaw es ↔ Plain (keysAfter es) := by
  have hf := follows_after es
  set s := keysAfter es with hs
  constructor
  · rintro ⟨hshift, hctrl, halt, hcaps, -⟩
    rw [hf.shift] at hshift
    rw [hf.ctrl] at hctrl
    rw [hf.alt] at halt
    rw [hf.caps] at hcaps
    refine ⟨?_, ?_, ?_, ?_⟩
    · intro hr
      simpa [shiftDown, ← hs, hr] using hshift.symm
    · intro hr
      simpa [ctrlDown, ← hs, hr] using hctrl
    · intro hr
      simpa [altDown, ← hs, hr] using halt
    · unfold capsOn at hcaps
      rw [← hs, decide_eq_decide] at hcaps
      omega
  · rintro ⟨hshift, hctrl, halt, hcaps⟩
    have hshift' : (keyboardAfter es).shiftStatus = shiftDown s := by
      rw [hf.shift]
      unfold shiftDown
      cases hr : s.shiftReleased with
      | false => simp
      | true =>
        obtain ⟨hl, hr⟩ := hshift hr
        simp [hl, hr]
    have hctrl' : (keyboardAfter es).ctrlStatus = ctrlDown s := by
      rw [hf.ctrl]
      unfold ctrlDown
      cases hl : s.down ctrlL <;> cases hr : s.down ctrlR <;> simp_all
    have halt' : (keyboardAfter es).altStatus = altDown s := by
      rw [hf.alt]
      unfold altDown
      cases hl : s.down altL <;> cases hr : s.down altR <;> simp_all
    have hcaps' : (keyboardAfter es).capsLockStatus = capsOn s := by
      rw [hf.caps]
      unfold capsOn
      rw [decide_eq_decide]
      omega
    refine ⟨hshift', hctrl', halt', hcaps', fun key hkey => ?_⟩
    have hboard : keyboardAfter es = ⟨ctrlDown s, shiftDown s, altDown s, capsOn s, false⟩ := by
      rw [← hctrl', ← hshift', ← halt', ← hcaps', ← hf.ext]
    rw [hboard]
    exact handler_char key.code key.lt hkey.2 _ _ _ _

/-- The right Ctrl key is pressed. -/
theorem keyboard_law_fails : ctrlDown (keysAfter [⟨ctrlR, true⟩]) = true ∧
    (keyboardAfter [⟨ctrlR, true⟩]).ctrlStatus = false ∧ ¬KeyboardLaw [⟨ctrlR, true⟩] := by
  refine ⟨by decide, by decide, fun h => ?_⟩
  have hctrl := h.ctrl
  revert hctrl
  decide

end Law

end Keyboard

end Gogoos
