import Mathlib.Tactic.Set
import Disassembly.Proofs.CaseJumps

/-! # Encoding p-code

The inverse of reading: an instruction of p-code is written as its opcode and the bytes of its
arguments, one after the other. `Argument p` is what can stand in code for the parameter `p`, with
its limits (a big number has fifteen bits, a counted block at most 255 items, only arrays of bytes
and of words have a size). A jump has no argument here, since where it leads is not in its own
bytes, so an opcode has `Arguments` exactly if it does not jump.

* `Argument.bytes`, `Argument.operands`, `Argument.mnemonic`: how an argument is written, how it is
  shown, and what it does to the mnemonic. The names of types and of standard procedures and the
  values of short opcodes are listed here once more, by tag, by number and by range;
* `Reading.read_argument`: one parameter, read where its argument was written;
* `Reading.foldl_read_arguments`: all of them, whatever bytes follow. -/

namespace Disassembly

/-! ### Streams that lead with given bytes -/

namespace ByteStream

variable {s : ByteStream}

/-- The stream leads with the bytes. -/
def Leads (s : ByteStream) (w : List UInt8) : Prop := s.take w.length = w

theorem leads_append {v w : List UInt8} :
    s.Leads (v ++ w) ↔ s.Leads v ∧ (s.drop v.length).Leads w := by
  unfold Leads
  rw [List.length_append, take_add]
  constructor
  · intro h
    exact List.append_inj h (length_take s v.length)
  · rintro ⟨hv, hw⟩
    rw [hv, hw]

theorem leads_cons {b : UInt8} {w : List UInt8} :
    s.Leads (b :: w) ↔ s 0 = b ∧ (s.drop 1).Leads w := by
  have hone : s.Leads [b] ↔ s 0 = b := by
    unfold Leads
    exact ⟨fun h => List.singleton_inj.mp h, fun h => List.singleton_inj.mpr h⟩
  rw [← hone]
  exact leads_append (v := [b])

end ByteStream

open ByteStream (leads_append leads_cons)

/-- The bytes of a word, the low one first. -/
def wordBytes (w : UInt16) : List UInt8 :=
  [UInt8.ofNat (w.toNat % 256), UInt8.ofNat (w.toNat / 256)]

theorem word_of_leads {s : ByteStream} {w : UInt16} (h : s.Leads (wordBytes w)) : s.word 0 = w := by
  obtain ⟨hlow, hrest⟩ := leads_cons.mp h
  obtain ⟨hhigh, -⟩ := leads_cons.mp hrest
  have hw := w.toNat_lt
  rw [← UInt16.toNat_inj, ByteStream.word, toNat_littleEndian, hlow]
  show _ + 256 * (s (0 + 1)).toNat = _
  rw [show s (0 + 1) = _ from hhigh, UInt8.toNat_ofNat', UInt8.toNat_ofNat']
  omega

theorem words_of_leads : ∀ {ws : List UInt16} {s : ByteStream}, s.Leads (ws.flatMap wordBytes) →
    (List.range ws.length).map (fun k => s.word (2 * k)) = ws
  | [], _, _ => rfl
  | w :: ws, s, h => by
    obtain ⟨hw, hws⟩ := leads_append.mp h
    have ih := words_of_leads hws
    rw [List.length_cons, List.range_succ_eq_map, List.map_cons, List.map_map, word_of_leads hw]
    congr 1
    refine (List.map_congr_left fun k _ => ?_).trans ih
    show s.word (2 * (k + 1)) = s.word (2 + 2 * k)
    rw [Nat.mul_add, Nat.add_comm]

theorem length_wordsBytes (ws : List UInt16) : (ws.flatMap wordBytes).length = 2 * ws.length := by
  rw [List.length_flatMap]
  induction ws with
  | nil => rfl
  | cons w ws ih =>
    rw [List.map_cons, List.sum_cons, ih, List.length_cons]
    show 2 + _ = _
    omega

namespace PCode

/-! ### Arguments -/

/-- A big number as it stands in code, a small one in one byte and any in two. -/
inductive Big where
  | short (n : Fin 128)
  | long (n : Fin 32768)

/-- The number. -/
def Big.value : Big → Nat
  | short n => n
  | long n => n

/-- The bytes of a big number; a first byte from 128 on says that there are two. -/
def Big.bytes : Big → List UInt8
  | short n => [UInt8.ofNat n]
  | long n => [0x80 ||| UInt8.ofNat (n / 256), UInt8.ofNat (n % 256)]

/-- What can stand in code for a parameter. -/
inductive Argument : Param → Type where
  | byte (b : UInt8) : Argument .byte
  | small (b : UInt8) : Argument .small
  | big (n : Big) : Argument .big
  | word (w : UInt16) : Argument .word
  /-- The type of a comparison without a size. -/
  | plain (tag : UInt8) (h : tag ≠ 10 ∧ tag ≠ 12) : Argument .comparison
  /-- The type of a comparison of arrays, and their size. -/
  | sized (tag : UInt8) (h : tag = 10 ∨ tag = 12) (size : Big) : Argument .comparison
  | standardCall (number : UInt8) : Argument .standardCall
  /-- A block of words, and the byte that may have to bring it to an even address. -/
  | constants (filler : UInt8) (words : List UInt16) (h : words.length < 256) : Argument .constants
  | packedArray (text : List UInt8) (h : text.length < 256) : Argument .packedArray
  | string (text : List UInt8) (h : text.length < 256) : Argument .string

namespace Argument

variable {p : Param}

/-- The filler that brings a block to an even address, behind a count at the address. -/
def fillerBytes (a : Address) (filler : UInt8) : List UInt8 :=
  if (a + 1).toNat % 2 = 1 then [filler] else []

/-- The bytes of an argument whose first byte is at an address. -/
def bytes (a : Address) : Argument p → List UInt8
  | byte b | small b => [b]
  | big n => n.bytes
  | word w => wordBytes w
  | plain tag _ => [tag]
  | sized tag _ size => tag :: size.bytes
  | standardCall number => [number]
  | constants filler words _ =>
    UInt8.ofNat words.length :: (fillerBytes a filler ++ words.flatMap wordBytes)
  | packedArray text _ | string text _ => UInt8.ofNat text.length :: text

/-- The types that comparisons have a name for, by tag. -/
def typeNames : List (UInt8 × String) :=
  [(2, "REAL"), (4, "STR"), (6, "BOOL"), (8, "POWR"), (10, "BYT"), (12, "WORD")]

/-- The standard procedures, by number. -/
def procedureNames : List (UInt8 × String) :=
  [(1, "NEW"), (2, "MVL"), (3, "MVR"), (4, "EXIT"), (5, "IDS"), (6, "TRS"), (7, "TIM"), (8, "FLC"),
    (9, "SCN"), (10, "TNC"), (11, "RND"), (12, "MRK"), (13, "RLS"), (14, "POT")]

/-- The characters between single quotes, one for each byte. -/
def quotedText (text : List UInt8) : String :=
  "'" ++ String.ofList (text.map fun b => Char.ofNat b.toNat) ++ "'"

/-- How an argument is shown. -/
def operands : Argument p → List Operand
  | byte b | small b => [.text b.toNat.repr]
  | big n => [.text n.value.repr]
  | word w => [.text w.toNat.repr]
  | plain _ _ => []
  | sized _ _ size => [.text size.value.repr]
  | standardCall number =>
    if (procedureNames.lookup number).isSome then [] else [.text number.toNat.repr]
  | constants _ words _ => .text words.length.repr :: words.map fun w => .text w.toNat.repr
  | packedArray text _ | string text _ => [.text (quotedText text)]

/-- The mnemonic of an instruction with the argument: the type of a comparison is added to it, and a
standard procedure stands in its place. -/
def mnemonic (name : String) : Argument p → String
  | plain tag _ | sized tag _ _ => name ++ (typeNames.lookup tag).getD ""
  | standardCall number => (procedureNames.lookup number).getD name
  | _ => name

end Argument

/-- Arguments for a list of parameters. -/
inductive Arguments : List Param → Type where
  | nil : Arguments []
  | cons {p : Param} {ps : List Param} (x : Argument p) (xs : Arguments ps) : Arguments (p :: ps)

namespace Arguments

/-- The bytes of the arguments from an address on. -/
def bytes : {ps : List Param} → Address → Arguments ps → List UInt8
  | _, _, nil => []
  | _, a, cons x xs => x.bytes a ++ xs.bytes (a + UInt16.ofNat (x.bytes a).length)

/-- How the arguments are shown. -/
def operands : {ps : List Param} → Arguments ps → List Operand
  | _, nil => []
  | _, cons x xs => x.operands ++ xs.operands

/-- The mnemonic of an instruction with the arguments. -/
def mnemonic : {ps : List Param} → String → Arguments ps → String
  | _, name, nil => name
  | _, name, cons x xs => xs.mnemonic (x.mnemonic name)

end Arguments

/-! ### One parameter -/

theorem bigValue_of_leads {s : ByteStream} : ∀ {n : Big}, s.Leads n.bytes →
    bigValue (s 0) (s 1) = (n.value, n.bytes.length)
  | .short n, h => by
    obtain ⟨hfirst, -⟩ := leads_cons.mp h
    have hn : (UInt8.ofNat n).toNat = n := by
      rw [UInt8.toNat_ofNat']
      omega
    unfold bigValue
    rw [hfirst, hn, if_pos n.isLt]
    rfl
  | .long n, h => by
    obtain ⟨hfirst, hrest⟩ := leads_cons.mp h
    obtain ⟨hsecond, -⟩ := leads_cons.mp hrest
    have hhigh : (0x80 ||| UInt8.ofNat (n / 256)).toNat = 128 + n / 256 := by
      have hseven : (n : Nat) / 256 < 2 ^ 7 := by omega
      rw [UInt8.toNat_or, UInt8.toNat_ofNat', Nat.mod_eq_of_lt (by omega)]
      exact (Nat.two_pow_add_eq_or_of_lt hseven 1).symm
    have hlow : (UInt8.ofNat (n % 256)).toNat = n % 256 := by
      rw [UInt8.toNat_ofNat']
      omega
    unfold bigValue
    rw [hfirst, show s 1 = _ from hsecond, hhigh, hlow, if_neg (by omega)]
    show (_, 2) = (n.val, 2)
    congr 1
    omega

set_option maxRecDepth 2000 in
theorem typeSuffix_eq : ∀ tag, typeSuffix tag = (Argument.typeNames.lookup tag).getD "" :=
  forall_byte (by decide)

set_option maxRecDepth 2000 in
theorem standardProcedure?_eq : ∀ number,
    standardProcedure? number = Argument.procedureNames.lookup number :=
  forall_byte (by decide)

namespace Reading

variable {c : Cursor} {p : Param}

/-- The reading behind bytes that show operands and make another mnemonic. -/
def behind (r : Reading) (w : List UInt8) (name : String) (os : List Operand) : Reading :=
  { r with length := r.length + w.length, mnemonic := name, operands := r.operands ++ os }

theorem behind_behind (r : Reading) (v w : List UInt8) (name name' : String)
    (os os' : List Operand) :
    (r.behind v name os).behind w name' os' = r.behind (v ++ w) name' (os ++ os') := by
  simp [behind, Nat.add_assoc]

theorem aligned_eq (c : Cursor) (n : Nat) (filler : UInt8) : aligned c (n + 1) =
    n + 1 + (Argument.fillerBytes (c.address + UInt16.ofNat n) filler).length := by
  have haddress : (c.address + UInt16.ofNat n + 1).toNat = (c.address.toNat + n + 1) % 65536 := by
    rw [UInt16.toNat_add, UInt16.toNat_add, UInt16.toNat_ofNat']
    show ((c.address.toNat + n % 65536) % 65536 + 1) % 65536 = _
    omega
  unfold aligned Argument.fillerBytes
  rw [haddress]
  split
  · rw [List.length_singleton]
    omega
  · rw [List.length_nil]
    omega

theorem constants_of_leads (r : Reading) {filler : UInt8} {words : List UInt16}
    {hlen : words.length < 256} {w : List UInt8}
    (hw : w = (Argument.constants filler words hlen).bytes (c.address + UInt16.ofNat r.length))
    (h : (c.ahead.drop r.length).Leads w) :
    r.constants c = r.behind w r.mnemonic (Argument.constants filler words hlen).operands := by
  have hlength : w.length = 1 +
      (Argument.fillerBytes (c.address + UInt16.ofNat r.length) filler).length +
      2 * words.length := by
    rw [hw, Argument.bytes, List.length_cons, List.length_append, length_wordsBytes]
    omega
  rw [hw] at h
  obtain ⟨hcount, hblock⟩ := leads_cons.mp h
  obtain ⟨-, hwords⟩ := leads_append.mp hblock
  have hcount : (c.ahead r.length).toNat = words.length := by
    rw [show c.ahead r.length = _ from hcount, UInt8.toNat_ofNat']
    omega
  -- The words stand where the count and the filler end, which is where reading aligns to.
  have hstart := aligned_eq c r.length filler
  rw [ByteStream.drop_drop, ByteStream.drop_drop, ← Nat.add_assoc, ← hstart] at hwords
  have hshown : (List.range words.length).map
      (fun k => decimal (c.ahead.word (aligned c (r.length + 1) + 2 * k)).toNat) =
        words.map fun w => decimal w.toNat := by
    conv_rhs => rw [← words_of_leads hwords, List.map_map]
    rfl
  have hend : aligned c (r.length + 1) + 2 * words.length = r.length + w.length := by
    rw [hstart, hlength]
    omega
  simp only [constants, hcount, hshown, hend]
  rfl

theorem quoted_of_leads (r : Reading) {text : List UInt8} (hlen : text.length < 256)
    (h : (c.ahead.drop r.length).Leads (UInt8.ofNat text.length :: text)) :
    r.quoted c = r.behind (UInt8.ofNat text.length :: text) r.mnemonic
      [.text (Argument.quotedText text)] := by
  obtain ⟨hcount, htext⟩ := leads_cons.mp h
  have hcount : (c.ahead r.length).toNat = text.length := by
    rw [show c.ahead r.length = _ from hcount, UInt8.toNat_ofNat']
    omega
  have htext : (c.ahead.drop (r.length + 1)).take text.length = text := by
    rw [ByteStream.drop_drop] at htext
    exact htext
  simp only [quoted, characters, hcount, htext]
  show r.extend (1 + text.length) _ = _
  rw [Nat.add_comm 1]
  rfl

/-- **One parameter**, read where its argument stands. -/
theorem read_argument (r : Reading) (x : Argument p)
    (h : (c.ahead.drop r.length).Leads (x.bytes (c.address + UInt16.ofNat r.length))) :
    r.read c p = r.behind (x.bytes (c.address + UInt16.ofNat r.length)) (x.mnemonic r.mnemonic)
      x.operands := by
  cases x with
  | byte b =>
    have hb : c.ahead r.length = b := (leads_cons.mp h).1
    simp only [read, hb]
    rfl
  | small b =>
    have hb : c.ahead r.length = b := (leads_cons.mp h).1
    simp only [read, hb]
    rfl
  | big n =>
    have hn : bigValue (c.ahead r.length) (c.ahead (r.length + 1)) = _ := bigValue_of_leads h
    simp only [read, big, hn]
    rfl
  | word w =>
    have hleads : (c.ahead.drop r.length).Leads (wordBytes w) := h
    have hfirst : (c.ahead.drop r.length).word 0 = w := word_of_leads hleads
    have hw : c.ahead.word r.length = w := hfirst
    simp only [read, hw]
    rfl
  | plain tag ht =>
    have htag : c.ahead r.length = tag := (leads_cons.mp h).1
    have hsized : isSized tag = false := by simp [isSized, ht]
    simp only [read, comparison, htag, hsized, typeSuffix_eq]
    rfl
  | sized tag ht size =>
    obtain ⟨htag, hsize⟩ := leads_cons.mp h
    have htag : c.ahead r.length = tag := htag
    have hsized : isSized tag = true := by simpa [isSized] using ht
    have hvalue : bigValue (c.ahead (r.length + 1)) (c.ahead (r.length + 1 + 1)) = _ :=
      bigValue_of_leads hsize
    have hend : r.length + 1 + size.bytes.length = r.length + (tag :: size.bytes).length := by
      rw [List.length_cons]
      omega
    simp only [read, comparison, htag, hsized, typeSuffix_eq, big, extend, hvalue, hend,
      List.append_nil]
    rfl
  | standardCall number =>
    have hnumber : c.ahead r.length = number := (leads_cons.mp h).1
    simp only [read, standardCall, hnumber, standardProcedure?_eq, Argument.operands,
      Argument.mnemonic]
    cases Argument.procedureNames.lookup number <;> rfl
  | constants filler words hlen => exact constants_of_leads r rfl h
  | packedArray text hlen => exact quoted_of_leads r hlen h
  | string text hlen => exact quoted_of_leads r hlen h

/-- **All parameters**, read where their arguments stand. -/
theorem foldl_read_arguments : ∀ {ps : List Param} (xs : Arguments ps) (r : Reading),
    (c.ahead.drop r.length).Leads (xs.bytes (c.address + UInt16.ofNat r.length)) →
      ps.foldl (read c) r = r.behind (xs.bytes (c.address + UInt16.ofNat r.length))
        (xs.mnemonic r.mnemonic) xs.operands
  | _, .nil, r, _ => by
    show r = { r with operands := r.operands ++ [] }
    rw [List.append_nil]
  | _, .cons x xs, r, h => by
    -- The bytes of the first argument move the address at which the others are written just as far
    -- as they move the reading.
    set w := x.bytes (c.address + UInt16.ofNat r.length) with hw
    have hbytes : (Arguments.cons x xs).bytes (c.address + UInt16.ofNat r.length) =
        w ++ xs.bytes (c.address + UInt16.ofNat (r.length + w.length)) := by
      rw [Arguments.bytes, ← hw, UInt16.add_assoc, UInt16.ofNat_add]
    rw [hbytes] at h
    obtain ⟨hx, hxs⟩ := leads_append.mp h
    rw [ByteStream.drop_drop] at hxs
    rw [List.foldl_cons, read_argument r x hx,
      foldl_read_arguments xs (r.behind w (x.mnemonic r.mnemonic) x.operands) hxs, behind_behind,
      hbytes]
    rfl

end Reading

/-! ### The instruction -/

/-- The opcodes that stand for a value, by range, with the value of the first. -/
def valueRanges : List (Nat × Nat × Nat) :=
  [(0, 127, 0), (216, 231, 1), (232, 247, 1), (248, 255, 0)]

/-- The value that an opcode itself stands for. -/
def ownValue (opcode : UInt8) : Option Nat :=
  valueRanges.findSome? fun (first, last, value) =>
    if first ≤ opcode.toNat ∧ opcode.toNat ≤ last then some (opcode.toNat - first + value) else none

set_option maxRecDepth 2000 in
theorem implied_entry : ∀ opcode, (entry opcode).implied = ownValue opcode :=
  forall_byte (by decide)

/-- The code of an instruction with arguments whose opcode is at an address. -/
def encode (opcode : UInt8) (xs : Arguments (entry opcode).params) (a : Address) : List UInt8 :=
  opcode :: xs.bytes (a + 1)

theorem nonempty_argument_iff (p : Param) :
    Nonempty (Argument p) ↔ p ≠ .jump ∧ p ≠ .caseJump := by
  constructor
  · rintro ⟨x⟩
    cases x <;> exact ⟨nofun, nofun⟩
  · rintro ⟨hjump, hcase⟩
    cases p with
    | jump => exact absurd rfl hjump
    | caseJump => exact absurd rfl hcase
    | byte => exact ⟨.byte 0⟩
    | small => exact ⟨.small 0⟩
    | big => exact ⟨.big (.short 0)⟩
    | word => exact ⟨.word 0⟩
    | comparison => exact ⟨.plain 0 (by decide)⟩
    | standardCall => exact ⟨.standardCall 0⟩
    | constants => exact ⟨.constants 0 [] (by decide)⟩
    | packedArray => exact ⟨.packedArray [] (by decide)⟩
    | string => exact ⟨.string [] (by decide)⟩

theorem nonempty_arguments_iff : ∀ ps : List Param,
    Nonempty (Arguments ps) ↔ ∀ p ∈ ps, p ≠ .jump ∧ p ≠ .caseJump
  | [] => iff_of_true ⟨.nil⟩ (List.forall_mem_nil _)
  | p :: ps => by
    rw [List.forall_mem_cons, ← nonempty_argument_iff p, ← nonempty_arguments_iff ps]
    constructor
    · rintro ⟨_ | ⟨x, xs⟩⟩
      exact ⟨⟨x⟩, ⟨xs⟩⟩
    · rintro ⟨⟨x⟩, ⟨xs⟩⟩
      exact ⟨.cons x xs⟩

theorem readOperation_of_leads {c : Cursor} {opcode : UInt8} {xs : Arguments (entry opcode).params}
    (h : c.ahead.Leads (encode opcode xs c.address)) :
    readOperation c =
      { length := (encode opcode xs c.address).length
        mark := c.mark
        mnemonic := xs.mnemonic (entry opcode).mnemonic
        operands := xs.operands ++ (ownValue opcode).toList.map fun n => .text n.repr } := by
  obtain ⟨hop, hxs⟩ := leads_cons.mp h
  subst hop
  have hread := Reading.foldl_read_arguments xs
    { length := 1, mark := c.mark, mnemonic := (entry (c.ahead 0)).mnemonic } hxs
  have hlength : 1 + (xs.bytes (c.address + 1)).length = (xs.bytes (c.address + 1)).length + 1 :=
    Nat.add_comm _ _
  unfold readOperation
  simp only [hread, Reading.behind, Reading.implied, Reading.extend, List.nil_append,
    implied_entry]
  exact congrArg (fun n => Reading.mk n _ _ _ _) hlength

/-- **One step**, where an instruction with arguments stands. -/
theorem step_of_leads {c : Cursor} {opcode : UInt8} {xs : Arguments (entry opcode).params}
    (hcode : inTable c = false) (h : c.ahead.Leads (encode opcode xs c.address)) :
    Decoder.pcode.instruction c =
      { address := c.address
        code := encode opcode xs c.address
        mnemonic := xs.mnemonic (entry opcode).mnemonic
        operands := xs.operands ++ (ownValue opcode).toList.map fun n => .text n.repr } ∧
    Decoder.pcode.advance c = c.advance (encode opcode xs c.address).length ∧
    Decoder.pcode.events c = [] := by
  obtain ⟨hline, hmark, hevents⟩ := instruction_of_not_inTable hcode
  rw [readOperation_of_leads h] at hline hmark hevents
  have hbytes : c.ahead.take (encode opcode xs c.address).length = encode opcode xs c.address := h
  simp only [Reading.instruction, hbytes] at hline
  refine ⟨hline, ?_, hevents⟩
  show (c.advance (Decoder.pcode.instruction c).code.length).withMark
    (Decoder.pcode.advance c).mark = _
  rw [hline, hmark]
  rfl

/-- The cursor behind some bytes of an image. -/
def cursorBehind (base : Address) (front rest : List UInt8) (mark : Int) : Cursor :=
  { image := { base, bytes := (front ++ rest).toArray }, offset := front.length, mark }

theorem leads_cursorBehind (base : Address) (front w rest : List UInt8) (mark : Int) :
    (cursorBehind base front (w ++ rest) mark).ahead.Leads w := by
  refine List.ext_getElem (by simp) fun k hk hk' => ?_
  have hget : (front ++ (w ++ rest))[front.length + k]? = some w[k] := by
    rw [List.getElem?_append_right (Nat.le_add_right _ _), Nat.add_sub_cancel_left,
      List.getElem?_append_left hk', List.getElem?_eq_getElem hk']
  simp only [ByteStream.take, List.getElem_map, List.getElem_range]
  show (front ++ (w ++ rest)).toArray.getD (front.length + k) 0 = w[k]
  rw [Array.getD_eq_getD_getElem?, List.getElem?_toArray, hget]
  rfl

/-- **Reading undoes writing.** An opcode has arguments exactly if it does not jump. Let such an
opcode and its arguments be written at any place of an image, in front of the jump table and
followed by any bytes. Then the step there reads exactly the bytes written, and its line shows the
arguments in order and then the value that the opcode itself stands for. The name of the type that a
comparison has a tag for is added to the mnemonic, and the name of a standard procedure takes its
place. The mark stays as it is, and nothing is reported. -/
theorem instruction_encode (opcode : UInt8) :
    (Nonempty (Arguments (entry opcode).params) ↔
      ∀ p ∈ (entry opcode).params, p ≠ .jump ∧ p ≠ .caseJump) ∧
    ∀ (xs : Arguments (entry opcode).params) (base : Address) (front rest : List UInt8)
      (mark : Int),
      let a := base + UInt16.ofNat front.length
      let code := encode opcode xs a
      let c := cursorBehind base front (code ++ rest) mark
      (c.offset : Int) < c.image.size + mark + 8 →
        Decoder.pcode.instruction c =
          { address := a
            code
            mnemonic := xs.mnemonic (entry opcode).mnemonic
            operands := xs.operands ++ (ownValue opcode).toList.map fun n => .text n.repr } ∧
        Decoder.pcode.advance c = { c with offset := front.length + code.length } ∧
        Decoder.pcode.events c = [] := by
  refine ⟨nonempty_arguments_iff _, fun xs base front rest mark => ?_⟩
  intro a code c hcode
  exact step_of_leads ((inTable_eq_false_iff c).mpr hcode)
    (leads_cursorBehind base front code rest mark)

/-- Three opcodes at the last address, whose arguments are at the first ones: a block of constants,
which a filler brings to an even address, a comparison of byte arrays with their size, and a
standard procedure. -/
theorem instruction_encode_last_address :
    let xs : Arguments [.constants] := .cons (.constants 0x55 [0x1234, 0x0001] (by decide)) .nil
    let ys : Arguments [.comparison] := .cons (.sized 10 (.inl rfl) (.long 300)) .nil
    let zs : Arguments [.standardCall] := .cons (.standardCall 14) .nil
    let block := cursorBehind 0xFFFE [0xD7] (encode 0xB3 xs 0xFFFF ++ [0x00]) 0
    let compared := cursorBehind 0xFFFF [] (encode 0xB7 ys 0xFFFF ++ [0xD7]) (-3)
    let called := cursorBehind 0xFFFF [] (encode 0x9E zs 0xFFFF) 0
    ((block.offset : Int) < block.image.size + 0 + 8 ∧
      Decoder.pcode.instruction block =
        { address := 0xFFFF
          code := [0xB3, 0x02, 0x55, 0x34, 0x12, 0x01, 0x00]
          mnemonic := "LDC"
          operands := [.text "2", .text "4660", .text "1"] } ∧
      (Decoder.pcode.advance block).offset = 8) ∧
    ((compared.offset : Int) < compared.image.size + (-3) + 8 ∧
      Decoder.pcode.instruction compared =
        { address := 0xFFFF
          code := [0xB7, 0x0A, 0x81, 0x2C]
          mnemonic := "NEQBYT"
          operands := [.text "300"] } ∧
      (Decoder.pcode.advance compared).offset = 4) ∧
    (called.offset : Int) < called.image.size + 0 + 8 ∧
      Decoder.pcode.instruction called =
        { address := 0xFFFF, code := [0x9E, 0x0E], mnemonic := "POT", operands := [] } := by
  intro xs ys zs block compared called
  have hblock : (block.offset : Int) < block.image.size + 0 + 8 := by decide
  have hcompared : (compared.offset : Int) < compared.image.size + (-3) + 8 := by decide
  have hcalled : (called.offset : Int) < called.image.size + 0 + 8 := by decide
  obtain ⟨hconstants, hbehind, -⟩ := (instruction_encode 0xB3).2 xs 0xFFFE [0xD7] [0x00] 0 hblock
  obtain ⟨hsize, hbehind', -⟩ := (instruction_encode 0xB7).2 ys 0xFFFF [] [0xD7] (-3) hcompared
  obtain ⟨hname, -⟩ := (instruction_encode 0x9E).2 zs 0xFFFF [] [] 0 hcalled
  refine ⟨⟨hblock, hconstants.trans rfl, ?_⟩, ⟨hcompared, hsize.trans rfl, ?_⟩, hcalled,
    hname.trans rfl⟩
  · rw [show Decoder.pcode.advance block = _ from hbehind]
    decide
  · rw [show Decoder.pcode.advance compared = _ from hbehind']
    decide

end PCode

end Disassembly
