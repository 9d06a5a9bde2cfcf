/-! # Numerals

The value of a run of digits in a given radix. A numeral has at least one digit, any number of
leading zeros, letters of either case as the digits from ten on, and at most one plus sign in front.
-/

namespace Disassembly.Numeral

/-- The value of a digit or letter, whatever the radix. -/
def rank? (c : Char) : Option Nat :=
  if '0' ≤ c ∧ c ≤ '9' then some (c.toNat - '0'.toNat)
  else if 'a' ≤ c ∧ c ≤ 'z' then some (c.toNat - 'a'.toNat + 10)
  else if 'A' ≤ c ∧ c ≤ 'Z' then some (c.toNat - 'A'.toNat + 10)
  else none

/-- The value of a digit of the radix. -/
def digit? (radix : Nat) (c : Char) : Option Nat := (rank? c).filter (· < radix)

/-- The number that a list of digit values denotes, the leading digit first. -/
def ofDigits (radix : Nat) (ds : List Nat) : Nat := ds.foldl (fun n d => n * radix + d) 0

/-- The value of a nonempty run of digits. -/
def digits? (radix : Nat) (cs : List Char) : Option Nat :=
  if cs.isEmpty then none else (cs.mapM (digit? radix)).map (ofDigits radix)

/-- The value of a numeral, a plus sign in front allowed. -/
def value? (radix : Nat) : List Char → Option Nat
  | '+' :: cs => digits? radix cs
  | cs => digits? radix cs

end Disassembly.Numeral
