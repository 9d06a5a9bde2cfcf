import Disassembly.PCode.Decode
import Disassembly.Switching
import Disassembly.Z80.Decode

/-! # Decoders and listings

A decoder is an instruction set together with what it remembers between instructions. A step takes
one instruction at a cursor and moves the cursor by exactly the bytes of the instruction; a listing
takes steps until the image is used up and no directive is owed. A step that moves the cursor by
nothing pays a directive that was owed, so a listing comes to an end (`Decoder.work_step_lt`). -/

namespace Disassembly

/-- An instruction set with its state. -/
inductive Decoder where
  | mos6502 (variant : Mos6502.Variant)
  | sweet16
  | switching (state : Switching)
  | z80
  | pcode
  deriving DecidableEq, Repr

/-- The decoder of an architecture, in its first state. -/
def Architecture.decoder : Architecture → Decoder
  | mos6502 => .mos6502 .nmos
  | undocumented6502 => .mos6502 .undocumented
  | cmos65C02 => .mos6502 .cmos
  | sweet16 => .sweet16
  | switching6502 => .switching {}
  | z80 => .z80
  | pcode => .pcode

namespace Decoder

/-! ### One step -/

/-- The next instruction at a cursor. -/
def instruction (d : Decoder) (c : Cursor) : Instruction :=
  match d with
  | mos6502 v => v.decode c.address c.ahead
  | sweet16 => Sweet16.decode c.address c.ahead
  | switching w => w.decode c.address c.ahead
  | z80 => Z80.decode c.address c.ahead
  | pcode => (PCode.read c).instruction c

/-- The decoder after the next instruction at a cursor. -/
def next (d : Decoder) (c : Cursor) : Decoder :=
  match d with
  | switching w => switching (w.next c.address c.ahead)
  | d => d

/-- The mark after the next instruction at a cursor. -/
def markAfter (d : Decoder) (c : Cursor) : Int :=
  match d with
  | pcode => (PCode.read c).mark
  | _ => c.mark

/-- What the next instruction at a cursor reports. -/
def events (d : Decoder) (c : Cursor) : List Event :=
  match d with
  | switching w => w.events c.address c.ahead
  | pcode => (PCode.read c).events
  | _ => []

/-- The cursor behind the next instruction. -/
def advance (d : Decoder) (c : Cursor) : Cursor :=
  (c.advance (d.instruction c).code.length).withMark (d.markAfter c)

/-- Whether a directive is owed. -/
def owes : Decoder → Bool
  | switching w => w.pending.isSome
  | _ => false

/-- Whether there is something left to list. -/
def hasWork (d : Decoder) (c : Cursor) : Bool := c.hasMore || d.owes

/-! ### Progress -/

/-- A bound on the number of instructions still to come: each byte may start an instruction that is
followed by a directive. -/
def work (d : Decoder) (c : Cursor) : Nat := 2 * (c.image.size - c.offset) + d.owes.toNat

theorem length_code_instruction_pos {d : Decoder} (h : d.owes = false) (c : Cursor) :
    0 < (d.instruction c).code.length := by
  cases d with
  | mos6502 v =>
    simp only [instruction, Mos6502.Variant.length_code_decode]
    exact Mos6502.Mode.length_pos _
  | sweet16 =>
    simp only [instruction, Sweet16.length_code_decode]
    exact Sweet16.Shape.length_pos _
  | switching w =>
    simp only [owes, Option.isSome_eq_false_iff, Option.isNone_iff_eq_none] at h
    simp only [instruction, Switching.decode, h]
    cases w.dialect with
    | mos6502 =>
      simp only [Dialect.decode, Mos6502.Variant.length_code_decode]
      exact Mos6502.Mode.length_pos _
    | sweet16 =>
      simp only [Dialect.decode, Sweet16.length_code_decode]
      exact Sweet16.Shape.length_pos _
  | z80 => exact Z80.length_code_decode_pos _ _
  | pcode =>
    simp only [instruction, PCode.Reading.instruction, ByteStream.length_take]
    exact PCode.length_read_pos c

theorem owes_next {d : Decoder} (h : d.owes = true) (c : Cursor) : (d.next c).owes = false := by
  cases d with
  | switching w =>
    obtain ⟨a, ha⟩ := Option.isSome_iff_exists.1 (by simpa [owes] using h)
    simp [next, Switching.next, ha, owes]
  | mos6502 | sweet16 | z80 | pcode => simp [owes] at h

/-- Each step leaves less to do. -/
theorem work_step_lt {d : Decoder} {c : Cursor} (h : d.hasWork c = true) :
    (d.next c).work (d.advance c) < d.work c := by
  simp only [work, advance, Cursor.image_withMark, Cursor.image_advance, Cursor.offset_withMark,
    Cursor.offset_advance]
  cases hd : d.owes with
  | true =>
    simp only [owes_next hd, Bool.toNat_true, Bool.toNat_false]
    omega
  | false =>
    have hc : c.offset < c.image.size := by
      simpa [hasWork, hd, Cursor.hasMore_iff] using h
    have hn := (d.next c).owes.toNat_le
    have hl := length_code_instruction_pos hd c
    simp only [Bool.toNat_false]
    omega

end Decoder

/-! ### Listings -/

/-- The instructions of an image, what was reported meanwhile, and where the decoder and its cursor
ended. -/
structure Listing where
  instructions : List Instruction
  events : List Event
  decoder : Decoder
  cursor : Cursor
  deriving DecidableEq, Repr

/-- The listing with a step in front of it. -/
def Listing.cons (i : Instruction) (es : List Event) (l : Listing) : Listing :=
  { l with instructions := i :: l.instructions, events := es ++ l.events }

/-- The instructions from a cursor on, until the image is used up and no directive is owed. -/
def Decoder.listing (d : Decoder) (c : Cursor) : Listing :=
  if d.hasWork c then
    ((d.next c).listing (d.advance c)).cons (d.instruction c) (d.events c)
  else { instructions := [], events := [], decoder := d, cursor := c }
termination_by d.work c
decreasing_by exact work_step_lt ‹_›

/-- The listing of an image from its first byte on. -/
def Architecture.listing (arch : Architecture) (m : Image) : Listing :=
  arch.decoder.listing { image := m }

end Disassembly
