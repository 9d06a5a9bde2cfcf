import Disassembly.Address

/-! # Operands

An operand is either plain text or a place: an address together with the literal that denotes it and
a template in whose slot the literal, or a name of the address, is shown. -/

namespace Disassembly

/-- The slot of a template. -/
def slot : String := "\x7b\x7d"

/-- A template filled in: the text stands in place of the first slot, and a template without a slot
stays as it is. -/
def fillChars (text : List Char) : List Char → List Char
  | [] => []
  | '\x7b' :: '\x7d' :: rest => text ++ rest
  | c :: rest => c :: fillChars text rest

/-- A template with a text in place of its first slot. -/
def fill (template text : String) : String :=
  String.ofList (fillChars text.toList template.toList)

/-- An operand of an instruction. -/
inductive Operand where
  /-- Text that is shown as it is. -/
  | text (value : String)
  /-- An address, shown by its name if it has one and else by the literal. -/
  | place (template literal : String) (address : Address)
  deriving DecidableEq, Repr

namespace Operand

/-- The template; plain text fills a slot that stands alone. -/
def template : Operand → String
  | text _ => slot
  | place t _ _ => t

/-- The text that fills the slot when no name does. -/
def value : Operand → String
  | text v => v
  | place _ v _ => v

/-- The address referred to. -/
def address : Operand → Option Address
  | text _ => none
  | place _ _ a => some a

/-- The operand as it is shown when `names` gives the names of addresses. -/
def render (names : Address → Option String) : Operand → String
  | text v => v
  | place t v a => fill t ((names a).getD v)

/-! ### Templates -/

/-- A place shown by its literal alone. -/
def bare (literal : String) (a : Address) : Operand := place slot literal a

/-- A place shown in brackets. -/
def bracketed (literal : String) (a : Address) : Operand := place ("(" ++ slot ++ ")") literal a

/-- A place after a bracket that a later operand closes. -/
def opened (literal : String) (a : Address) : Operand := place ("(" ++ slot) literal a

end Operand

/-- Filling the slot that stands alone gives the text itself. -/
theorem fill_slot (text : String) : fill slot text = text := by
  have h : slot.toList = ['\x7b', '\x7d'] := by decide
  simp [fill, h, fillChars]

theorem Operand.render_eq_fill (names : Address → Option String) (o : Operand) :
    o.render names = fill o.template ((o.address.bind names).getD o.value) := by
  cases o <;> simp [render, template, address, value, fill_slot]

end Disassembly
