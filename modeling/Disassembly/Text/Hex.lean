/-! # Hexadecimal text

A byte is written with two and a word with four upper-case hexadecimal digits, the high digit first.
The texts are built from explicit lists of digits, so that a fact about a text is a fact about a
list of known length. -/

namespace Disassembly.Hex

/-- The upper-case digit of a value below sixteen. -/
def digit (n : Nat) : Char := if n < 10 then Char.ofNat (48 + n) else Char.ofNat (55 + n)

/-- The two digits of a byte. -/
def byteDigits (b : UInt8) : List Char := [digit (b.toNat / 16), digit (b.toNat % 16)]

/-- The four digits of a word. -/
def wordDigits (w : UInt16) : List Char :=
  [digit (w.toNat / 4096), digit (w.toNat / 256 % 16), digit (w.toNat / 16 % 16),
    digit (w.toNat % 16)]

/-- The text of a byte. -/
def byte (b : UInt8) : String := String.ofList (byteDigits b)

/-- The text of a word. -/
def word (w : UInt16) : String := String.ofList (wordDigits w)

/-- The bytes of a piece of code, separated by blanks. -/
def dump (code : List UInt8) : String := " ".intercalate (code.map byte)

@[simp] theorem toList_byte (b : UInt8) : (byte b).toList = byteDigits b := String.toList_ofList

@[simp] theorem toList_word (w : UInt16) : (word w).toList = wordDigits w := String.toList_ofList

@[simp] theorem length_byteDigits (b : UInt8) : (byteDigits b).length = 2 := rfl

@[simp] theorem length_wordDigits (w : UInt16) : (wordDigits w).length = 4 := rfl

end Disassembly.Hex
