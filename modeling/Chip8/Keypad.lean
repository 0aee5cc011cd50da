import Chip8.Platform

/-!
# The Keypad

Sixteen keys, of which any number may be held at a time. A host keyboard
reaches them through a fixed layout, which puts the keypad on the left of the
keyboard:

```
1 2 3 4      1 2 3 C
q w e r  ->  4 5 6 D
a s d f      7 8 9 E
z x c v      A 0 B F
```

## Main definitions

* `Keypad`: Which keys are held.
* `Keypad.press`, `Keypad.release`, `Keypad.isHeld`: Single keys.
* `Keypad.lowestHeld?`: The key that an instruction waiting for one gets.
* `Keypad.ofChar?`: The key under a character of the host keyboard.
-/

namespace Chip8

/-- Which keys are held down. -/
abbrev Keypad := Vector Bool keyCount

namespace Keypad

/-- No key is held. -/
def idle : Keypad :=
  Vector.replicate keyCount false

/-- A key goes down or up. Numbers beyond the keypad are no keys. -/
def hold (key : UInt8) (down : Bool) (keys : Keypad) : Keypad :=
  keys.setIfInBounds key.toNat down

def press (key : UInt8) (keys : Keypad) : Keypad :=
  hold key true keys

def release (key : UInt8) (keys : Keypad) : Keypad :=
  hold key false keys

/-- Whether a key is held. -/
def isHeld (key : UInt8) (keys : Keypad) : Bool :=
  keys[key.toNat]?.getD false

/-- The lowest key that is held. -/
def lowestHeld? (keys : Keypad) : Option UInt8 :=
  ((List.range keyCount).map Nat.toUInt8).find? fun key => isHeld key keys

/-- Characters of the host keyboard and the keys under them. -/
def hostKeys : List (Char × UInt8) :=
  [ ('1', 0x1), ('2', 0x2), ('3', 0x3), ('4', 0xC),
    ('q', 0x4), ('w', 0x5), ('e', 0x6), ('r', 0xD),
    ('a', 0x7), ('s', 0x8), ('d', 0x9), ('f', 0xE),
    ('z', 0xA), ('x', 0x0), ('c', 0xB), ('v', 0xF) ]

/-- The key under a character, in upper or lower case. -/
def ofChar? (c : Char) : Option UInt8 :=
  hostKeys.lookup c.toLower

end Keypad

end Chip8
