import Disassembly.Address
import Disassembly.Error
import Disassembly.Text.Blank
import Disassembly.Text.Numeral

/-! # Addresses given as text

An address is a hexadecimal numeral after `$`, `0x` or `0X`, or else a decimal numeral, with blanks
around it allowed and a value of at most 65535. -/

namespace Disassembly.Address

/-- The number that a text without outer blanks denotes. -/
def number? : List Char → Option Nat
  | '$' :: cs => Numeral.value? 16 cs
  | '0' :: 'x' :: cs => Numeral.value? 16 cs
  | '0' :: 'X' :: cs => Numeral.value? 16 cs
  | cs => Numeral.value? 10 cs

/-- The address that a text denotes. -/
def parse? (text : String) : Option Address :=
  ((number? (Blank.trim text.toList)).filter (· < 65536)).map UInt16.ofNat

/-- The address that a text denotes, or the complaint that quotes the text as it was given. -/
def parse (text : String) : Except Error Address :=
  match parse? text with
  | some a => .ok a
  | none => .error (.invalidAddress text)

end Disassembly.Address
