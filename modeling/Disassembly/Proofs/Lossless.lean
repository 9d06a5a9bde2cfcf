import Disassembly.Proofs.Causality
import Mathlib.Data.List.Nodup

/-! # Lines determine bytes

For the 6502, the 65C02 and SWEET16 the line of a defined instruction at a given address leaves only
one choice for its code, so that an image can be told from its listing.

A line is a text around the digits of its operand. `outline` hides the digits behind the dollar
sign, and what is left depends on the opcode alone.

* `distinct_outlines`: no two defined opcodes of a table leave the same outline, which is checked on
  the table; so a line has one opcode (`opcode_eq_of_line_eq`).
* `operandBytes_eq`: with the opcode known the digits, which are those of a byte, of a word or of
  the target of a branch, give the bytes behind it.
* `Decoder.Lossless`: what this means for one step; `bytesOf_listing_eq` goes on with it along two
  listings. -/

namespace Disassembly

/-! ### Digits -/

/-- The digits of hexadecimal texts. -/
def hexDigits : List Char :=
  ['0', '1', '2', '3', '4', '5', '6', '7', '8', '9', 'A', 'B', 'C', 'D', 'E', 'F']

/-- The text is made of `n` digits. -/
def IsDigits (ds : List Char) (n : Nat) : Prop := (∀ c ∈ ds, c ∈ hexDigits) ∧ ds.length = n

namespace Hex

theorem digit_mem : ∀ n < 16, digit n ∈ hexDigits := by decide

theorem digit_inj : ∀ m < 16, ∀ n < 16, digit m = digit n → m = n := by decide

theorem isDigits_byteDigits (b : UInt8) : IsDigits (byteDigits b) 2 := by
  have hb := b.toNat_lt
  refine ⟨?_, rfl⟩
  simp only [byteDigits, List.forall_mem_cons]
  exact ⟨digit_mem _ (by omega), digit_mem _ (by omega), by simp⟩

theorem isDigits_wordDigits (w : UInt16) : IsDigits (wordDigits w) 4 := by
  have hw := w.toNat_lt
  refine ⟨?_, rfl⟩
  simp only [wordDigits, List.forall_mem_cons]
  exact ⟨digit_mem _ (by omega), digit_mem _ (by omega), digit_mem _ (by omega),
    digit_mem _ (by omega), by simp⟩

theorem byteDigits_inj {b b' : UInt8} (h : byteDigits b = byteDigits b') : b = b' := by
  have hb := b.toNat_lt
  have hb' := b'.toNat_lt
  simp only [byteDigits, List.cons.injEq] at h
  have hhigh := digit_inj _ (by omega) _ (by omega) h.1
  have hlow := digit_inj _ (by omega) _ (by omega) h.2.1
  rw [← UInt8.toNat_inj]
  omega

theorem wordDigits_inj {w w' : UInt16} (h : wordDigits w = wordDigits w') : w = w' := by
  have hw := w.toNat_lt
  have hw' := w'.toNat_lt
  simp only [wordDigits, List.cons.injEq] at h
  have h3 := digit_inj _ (by omega) _ (by omega) h.1
  have h2 := digit_inj _ (by omega) _ (by omega) h.2.1
  have h1 := digit_inj _ (by omega) _ (by omega) h.2.2.1
  have h0 := digit_inj _ (by omega) _ (by omega) h.2.2.2.1
  rw [← UInt16.toNat_inj]
  omega

end Hex

theorem littleEndian_inj {l h l' h' : UInt8} (he : littleEndian l h = littleEndian l' h') :
    l = l' ∧ h = h' := by
  have hval : ∀ l h : UInt8, (littleEndian l h).toNat = l.toNat + 256 * h.toNat := by
    intro l h
    have hl := l.toNat_lt
    have hh := h.toNat_lt
    simp only [littleEndian, UInt16.toNat_add, UInt16.toNat_mul, UInt8.toNat_toUInt16]
    show (l.toNat + 256 * h.toNat % 65536) % 65536 = _
    omega
  have hl := l.toNat_lt
  have hl' := l'.toNat_lt
  have hn := hval l h
  rw [he, hval] at hn
  rw [← UInt8.toNat_inj, ← UInt8.toNat_inj]
  omega

theorem Address.branch_inj {a : Address} {b b' : UInt8}
    (h : a.branch (signed b) = a.branch (signed b')) : b = b' := by
  have hb := b.toNat_lt
  have hb' := b'.toNat_lt
  have hofInt : ∀ d : Int, (UInt16.ofInt d).toNat = (d % 65536).toNat := by
    intro d
    simp only [UInt16.ofInt, UInt16.toNat_ofNat']
    omega
  have hd : UInt16.ofInt (signed b) = UInt16.ofInt (signed b') := by
    unfold branch move at h
    exact UInt16.add_right_inj _ |>.mp h
  have hn := congrArg UInt16.toNat hd
  rw [hofInt, hofInt] at hn
  unfold signed at hn
  rw [← UInt8.toNat_inj]
  split at hn <;> split at hn <;> omega

theorem ByteStream.take_congr_of_head {s t : ByteStream} {n : Nat} (h0 : s 0 = t 0)
    (h : ∀ k, 0 < k → k < n → s k = t k) : s.take n = t.take n := by
  refine take_congr fun k hk => ?_
  rcases Nat.eq_zero_or_pos k with rfl | hpos
  · exact h0
  · exact h k hpos hk

/-! ### Outlines -/

/-- A character with all digits made equal. -/
def hideDigit (c : Char) : Char := if c ∈ hexDigits then '0' else c

/-- A line with all digits behind its first dollar sign made equal. -/
def outline : List Char → List Char
  | [] => []
  | '$' :: cs => '$' :: cs.map hideDigit
  | c :: cs => c :: outline cs

theorem outline_append : ∀ {stem : List Char}, '$' ∉ stem → ∀ cs,
    outline (stem ++ cs) = stem ++ outline cs
  | [], _, _ => rfl
  | c :: stem, h, cs => by
    have hc : c ≠ '$' := fun hc => h (by rw [hc]; exact List.mem_cons_self)
    have ih := outline_append (fun hs => h (List.mem_cons_of_mem c hs)) cs
    rw [List.cons_append, outline, ih, List.cons_append]
    exact hc

theorem IsDigits.map_hideDigit {ds : List Char} {n : Nat} (h : IsDigits ds n) :
    ds.map hideDigit = List.replicate n '0' := by
  obtain ⟨hmem, hlen⟩ := h
  refine List.eq_replicate_iff.mpr ⟨by rw [List.length_map, hlen], fun c hc => ?_⟩
  obtain ⟨d, hd, rfl⟩ := List.mem_map.mp hc
  exact if_pos (hmem d hd)

/-- The characters of a line as the digits of one number, which is fast to compare. -/
def lineNumber (cs : List Char) : Nat := cs.foldl (fun n c => n * 256 + c.toNat) 0

/-- Whether the numbers of a list are different from each other. -/
def distinct : List Nat → Bool
  | [] => true
  | n :: ns => ns.all (fun m => !Nat.beq n m) && distinct ns

theorem nodup_of_distinct : ∀ {ns : List Nat}, distinct ns = true → ns.Nodup
  | [], _ => List.nodup_nil
  | n :: ns, h => by
    rw [distinct, Bool.and_eq_true, List.all_eq_true] at h
    refine List.nodup_cons.mpr ⟨fun hn => ?_, nodup_of_distinct h.2⟩
    have hne := h.1 n hn
    rw [Nat.beq_refl] at hne
    cases hne

/-- The bytes with a property, in order. -/
def bytesWith (p : UInt8 → Bool) : List UInt8 := ((List.range 256).map UInt8.ofNat).filter p

theorem mem_bytesWith {p : UInt8 → Bool} {b : UInt8} : b ∈ bytesWith p ↔ p b = true := by
  refine List.mem_filter.trans ⟨And.right, fun h => ⟨List.mem_map.mpr ⟨b.toNat, ?_, ?_⟩, h⟩⟩
  · exact List.mem_range.mpr b.toNat_lt
  · exact UInt8.ofNat_toNat

/-- What tells the bytes with a property apart, by a check on all of them. -/
theorem eq_of_distinct {p : UInt8 → Bool} {f : UInt8 → List Char}
    (h : distinct ((bytesWith p).map fun b => lineNumber (f b)) = true) {b b' : UInt8}
    (hb : p b = true) (hb' : p b' = true) (he : f b = f b') : b = b' :=
  List.inj_on_of_nodup_map (nodup_of_distinct h) (mem_bytesWith.mpr hb) (mem_bytesWith.mpr hb')
    (by rw [he])

/-- **The opcode of a line.** Let lines be made of an opcode and the digits of an operand, so many
as the opcode asks for. If no two opcodes have the same outline, no two have the same line. -/
theorem opcode_eq_of_line_eq {p : UInt8 → Bool} {line : UInt8 → List Char → List Char}
    {width : UInt8 → Nat}
    (houtline : ∀ b {ds}, IsDigits ds (width b) →
      outline (line b ds) = line b (List.replicate (width b) '0'))
    (htable : distinct ((bytesWith p).map fun b =>
      lineNumber (line b (List.replicate (width b) '0'))) = true)
    {b b' : UInt8} (hb : p b = true) (hb' : p b' = true) {ds ds' : List Char}
    (hds : IsDigits ds (width b)) (hds' : IsDigits ds' (width b'))
    (h : line b ds = line b' ds') : b = b' := by
  have ho := congrArg outline h
  rw [houtline b hds, houtline b' hds'] at ho
  exact eq_of_distinct (f := fun b => line b (List.replicate (width b) '0')) htable hb hb' ho

/-! ### Lines as lists of characters -/

theorem toList_slot : slot.toList = ['\x7b', '\x7d'] := by decide

theorem toList_fill (template text : String) :
    (fill template text).toList = fillChars text.toList template.toList := String.toList_ofList

/-- The characters of a line behind the mnemonic, without names for addresses. -/
def operandText (os : List Operand) : List Char :=
  let cs := (",".intercalate (os.map (Operand.render fun _ => none))).toList
  if cs = [] then [] else ' ' :: cs

theorem Instruction.toList_plain (i : Instruction) :
    i.plain.toList = i.mnemonic.toList ++ operandText i.operands := by
  unfold plain render operandText
  show _ = _ ++ if (i.renderOperands fun _ => none).toList = [] then [] else
    ' ' :: (i.renderOperands fun _ => none).toList
  by_cases he : i.renderOperands (fun _ => none) = ""
  · simp [he]
  · have hempty : (i.renderOperands fun _ => none).isEmpty = false :=
      String.isEmpty_eq_false_iff.mpr he
    simp [he, hempty]

/-! ### The 6502 family -/

namespace Mos6502

namespace Mode

/-- The characters behind the mnemonic, around the digits of the operand. -/
def text (mode : Mode) (ds : List Char) : List Char :=
  match mode with
  | implicit | accumulator | undefined1 => []
  | immediate => ' ' :: '#' :: '$' :: ds
  | zeroPage | undefined2 | relative | absolute | undefined3 => ' ' :: '$' :: ds
  | zeroPageX | absoluteX => ' ' :: '$' :: (ds ++ [',', 'X'])
  | zeroPageY | absoluteY => ' ' :: '$' :: (ds ++ [',', 'Y'])
  | zeroPageIndirect | indirect => ' ' :: '(' :: '$' :: (ds ++ [')'])
  | indirectX | absoluteIndexedIndirect => ' ' :: '(' :: '$' :: (ds ++ [',', 'X', ')'])
  | indirectY => ' ' :: '(' :: '$' :: (ds ++ [')', ',', 'Y'])

/-- The digits of the operand. -/
def digits (mode : Mode) (a : Address) (s : ByteStream) : List Char :=
  if mode = relative then Hex.wordDigits (a.branch (signed (s 1)))
  else if mode.length = 2 then Hex.byteDigits (s 1)
  else Hex.wordDigits (s.word 1)

/-- The number of digits of the operand. -/
def width (mode : Mode) : Nat := if mode ≠ relative ∧ mode.length = 2 then 2 else 4

theorem isDigits_digits (mode : Mode) (a : Address) (s : ByteStream) :
    IsDigits (mode.digits a s) mode.width := by
  unfold digits width
  by_cases hr : mode = relative
  · rw [if_pos hr, if_neg fun h => h.1 hr]
    exact Hex.isDigits_wordDigits _
  · rw [if_neg hr]
    by_cases hl : mode.length = 2
    · rw [if_pos hl, if_pos ⟨hr, hl⟩]
      exact Hex.isDigits_byteDigits _
    · rw [if_neg hl, if_neg fun h => hl h.2]
      exact Hex.isDigits_wordDigits _

theorem operandText_operands (mode : Mode) (a : Address) (s : ByteStream) :
    operandText (mode.operands a s) = mode.text (mode.digits a s) := by
  cases mode <;>
    simp [operandText, operands, text, digits, length, Operand.render, Operand.bare,
      Operand.bracketed, Operand.opened, String.intercalate_cons_cons, toList_fill, toList_slot,
      fillChars, Address.dollarByte, Address.dollarWord]

theorem outline_text (mode : Mode) {ds : List Char} {n : Nat} (h : IsDigits ds n) :
    outline (mode.text ds) = mode.text (List.replicate n '0') := by
  cases mode <;> simp [text, outline, h.map_hideDigit, hideDigit, hexDigits]

theorem text_inj {mode : Mode} (hl : mode.length ≠ 1) {ds ds' : List Char}
    (h : mode.text ds = mode.text ds') : ds = ds' := by
  cases mode <;> simp_all [text, length]

/-- The digits of an operand give the bytes behind the opcode. -/
theorem operandBytes_eq {mode : Mode} {a : Address} {s t : ByteStream}
    (h : mode.digits a s = mode.digits a t) : ∀ k, 0 < k → k < mode.length → s k = t k := by
  intro k hk hlt
  have hle := mode.length_le
  unfold digits at h
  by_cases hr : mode = relative
  · rw [if_pos hr, if_pos hr] at h
    obtain rfl : k = 1 := by
      rw [hr] at hlt
      simp only [length] at hlt
      omega
    exact Address.branch_inj (Hex.wordDigits_inj h)
  · rw [if_neg hr, if_neg hr] at h
    by_cases hl : mode.length = 2
    · rw [if_pos hl, if_pos hl] at h
      obtain rfl : k = 1 := by omega
      exact Hex.byteDigits_inj h
    · rw [if_neg hl, if_neg hl] at h
      obtain ⟨hlow, hhigh⟩ := littleEndian_inj (Hex.wordDigits_inj h)
      obtain rfl | rfl : k = 1 ∨ k = 2 := by omega
      · exact hlow
      · exact hhigh

end Mode

namespace Variant

/-- The line of an opcode and the digits of its operand. -/
def line (v : Variant) (b : UInt8) (ds : List Char) : List Char :=
  (v.entry b).mnemonic.toList ++ (v.entry b).mode.text ds

theorem toList_plain_decode (v : Variant) (a : Address) (s : ByteStream) :
    (v.decode a s).plain.toList = v.line (s 0) ((v.entry (s 0)).mode.digits a s) := by
  rw [Instruction.toList_plain, line, ← Mode.operandText_operands]
  rfl

theorem dollar_notMem_mnemonic {v : Variant} (hv : v ≠ .undocumented) :
    ∀ b, '$' ∉ (v.entry b).mnemonic.toList := by
  cases v with
  | undocumented => exact absurd rfl hv
  | nmos | cmos => exact forall_byte (by decide +kernel)

theorem outline_line {v : Variant} (hv : v ≠ .undocumented) (b : UInt8) {ds : List Char} {n : Nat}
    (h : IsDigits ds n) : outline (v.line b ds) = v.line b (List.replicate n '0') := by
  unfold line
  rw [outline_append (dollar_notMem_mnemonic hv b), Mode.outline_text _ h]

/-- No two defined opcodes of a processor have the same outline. The undocumented opcodes are left
out, since several of them do the same. -/
theorem distinct_outlines {v : Variant} (hv : v ≠ .undocumented) :
    distinct ((bytesWith fun b => (v.entry b).mnemonic != undefinedMnemonic).map fun b =>
      lineNumber (v.line b (List.replicate (v.entry b).mode.width '0'))) = true := by
  cases v with
  | undocumented => exact absurd rfl hv
  | nmos | cmos => decide +kernel

/-- **At a given address the line of a defined instruction determines its code.** -/
theorem code_eq_of_plain_eq {v : Variant} (hv : v ≠ .undocumented) {a : Address} {s t : ByteStream}
    (hs : (v.decode a s).mnemonic ≠ undefinedMnemonic)
    (ht : (v.decode a t).mnemonic ≠ undefinedMnemonic)
    (h : (v.decode a s).plain = (v.decode a t).plain) :
    (v.decode a s).code = (v.decode a t).code := by
  have hline := congrArg String.toList h
  rw [toList_plain_decode, toList_plain_decode] at hline
  have hop : s 0 = t 0 := opcode_eq_of_line_eq (fun b _ => outline_line hv b)
    (distinct_outlines hv) (bne_iff_ne.mpr hs) (bne_iff_ne.mpr ht) (Mode.isDigits_digits _ a s)
    (Mode.isDigits_digits _ a t) hline
  show s.take _ = t.take _
  rw [← hop] at hline ⊢
  have htext := List.append_cancel_left hline
  refine ByteStream.take_congr_of_head hop fun k hpos hk => ?_
  exact Mode.operandBytes_eq (Mode.text_inj (by omega) htext) k hpos hk

end Variant

end Mos6502

/-! ### SWEET16 -/

namespace Sweet16

namespace Shape

/-- The characters behind the mnemonic, around the name of the register and the digits of the
operand. -/
def text (shape : Shape) (register ds : List Char) : List Char :=
  match shape with
  | constant => ' ' :: (register ++ ',' :: '#' :: '$' :: ds)
  | direct => ' ' :: register
  | indirect => ' ' :: '@' :: register
  | branch => ' ' :: '$' :: ds
  | implied => []

/-- The digits of the operand. -/
def digits (shape : Shape) (a : Address) (s : ByteStream) : List Char :=
  if shape = branch then Hex.wordDigits (a.branch (signed (s 1))) else Hex.wordDigits (s.word 1)

theorem isDigits_digits (shape : Shape) (a : Address) (s : ByteStream) :
    IsDigits (shape.digits a s) 4 := by
  unfold digits
  split <;> exact Hex.isDigits_wordDigits _

theorem operandText_operands (shape : Shape) (a : Address) (s : ByteStream) :
    operandText (shape.operands a s) = shape.text (register (s 0)).toList (shape.digits a s) := by
  cases shape <;>
    simp [operandText, operands, text, digits, register, Operand.render, Operand.bare,
      String.intercalate_cons_cons, toList_fill, toList_slot, fillChars, Address.dollarWord]

theorem outline_text (shape : Shape) {register ds : List Char} {n : Nat} (hr : '$' ∉ register)
    (h : IsDigits ds n) :
    outline (shape.text register ds) = shape.text register (List.replicate n '0') := by
  have hregister : outline register = register := by
    simpa [outline] using outline_append hr []
  cases shape <;> simp [text, outline, outline_append hr, hregister, h.map_hideDigit]

theorem text_inj {shape : Shape} (hl : shape.length ≠ 1) {register ds ds' : List Char}
    (h : shape.text register ds = shape.text register ds') : ds = ds' := by
  cases shape <;> simp_all [text, length]

/-- The digits of an operand give the bytes behind the opcode. -/
theorem operandBytes_eq {shape : Shape} {a : Address} {s t : ByteStream}
    (h : shape.digits a s = shape.digits a t) : ∀ k, 0 < k → k < shape.length → s k = t k := by
  intro k hk hlt
  have hle := shape.length_le
  unfold digits at h
  by_cases hb : shape = branch
  · rw [if_pos hb, if_pos hb] at h
    obtain rfl : k = 1 := by
      rw [hb] at hlt
      simp only [length] at hlt
      omega
    exact Address.branch_inj (Hex.wordDigits_inj h)
  · rw [if_neg hb, if_neg hb] at h
    obtain ⟨hlow, hhigh⟩ := littleEndian_inj (Hex.wordDigits_inj h)
    obtain rfl | rfl : k = 1 ∨ k = 2 := by omega
    · exact hlow
    · exact hhigh

end Shape

/-- The line of an opcode and the digits of its operand. -/
def line (b : UInt8) (ds : List Char) : List Char :=
  (entry b).mnemonic.toList ++ (entry b).shape.text (register b).toList ds

theorem toList_plain_decode (a : Address) (s : ByteStream) :
    (decode a s).plain.toList = line (s 0) ((entry (s 0)).shape.digits a s) := by
  rw [Instruction.toList_plain, line, ← Shape.operandText_operands]
  rfl

theorem dollar_notMem_mnemonic : ∀ b, '$' ∉ (entry b).mnemonic.toList :=
  forall_byte (by decide +kernel)

theorem dollar_notMem_register (b : UInt8) : '$' ∉ (register b).toList := by
  have hnumbers : ∀ n < 16, '$' ∉ ("R" ++ n.repr).toList := by decide +kernel
  exact hnumbers _ (Nat.mod_lt _ (by decide))

theorem outline_line (b : UInt8) {ds : List Char} {n : Nat} (h : IsDigits ds n) :
    outline (line b ds) = line b (List.replicate n '0') := by
  unfold line
  rw [outline_append (dollar_notMem_mnemonic b), Shape.outline_text _ (dollar_notMem_register b) h]

/-- No two defined opcodes have the same outline. -/
theorem distinct_outlines :
    distinct ((bytesWith fun b => (entry b).mnemonic != undefinedMnemonic).map fun b =>
      lineNumber (line b (List.replicate 4 '0'))) = true := by
  decide +kernel

/-- **At a given address the line of a defined instruction determines its code.** -/
theorem code_eq_of_plain_eq {a : Address} {s t : ByteStream}
    (hs : (decode a s).mnemonic ≠ undefinedMnemonic)
    (ht : (decode a t).mnemonic ≠ undefinedMnemonic)
    (h : (decode a s).plain = (decode a t).plain) : (decode a s).code = (decode a t).code := by
  have hline := congrArg String.toList h
  rw [toList_plain_decode, toList_plain_decode] at hline
  have hop : s 0 = t 0 := opcode_eq_of_line_eq (fun b _ => outline_line b) distinct_outlines
    (bne_iff_ne.mpr hs) (bne_iff_ne.mpr ht) (Shape.isDigits_digits _ a s)
    (Shape.isDigits_digits _ a t) hline
  show s.take _ = t.take _
  rw [← hop] at hline ⊢
  have htext := List.append_cancel_left hline
  refine ByteStream.take_congr_of_head hop fun k hpos hk => ?_
  exact Shape.operandBytes_eq (Shape.text_inj (by omega) htext) k hpos hk

end Sweet16

/-! ### Listings -/

namespace Decoder

variable {d : Decoder} {c c' : Cursor}

/-- The line of a defined instruction of the decoder determines its code at a given address. -/
def Lossless (d : Decoder) : Prop := ∀ c c' : Cursor, c.address = c'.address →
  (d.instruction c).mnemonic ≠ undefinedMnemonic →
  (d.instruction c').mnemonic ≠ undefinedMnemonic →
  (d.instruction c).plain = (d.instruction c').plain →
  (d.instruction c).code = (d.instruction c').code

theorem lossless_mos6502 {v : Mos6502.Variant} (hv : v ≠ .undocumented) :
    (mos6502 v).Lossless := by
  intro c c' ha hd hd' h
  simp only [instruction, ha] at hd hd' h ⊢
  exact Mos6502.Variant.code_eq_of_plain_eq hv hd hd' h

theorem lossless_sweet16 : sweet16.Lossless := by
  intro c c' ha hd hd' h
  simp only [instruction, ha] at hd hd' h ⊢
  exact Sweet16.code_eq_of_plain_eq hd hd' h

/-- **Two runs**: two listings with the same lines from the same address on have the same code. -/
theorem Lossless.bytesOf_listing_eq (hl : d.Lossless) (hs : ∀ w, d ≠ .switching w)
    (ha : c.address = c'.address)
    (hd : ∀ i ∈ (d.listing c).instructions, i.mnemonic ≠ undefinedMnemonic)
    (hd' : ∀ i ∈ (d.listing c').instructions, i.mnemonic ≠ undefinedMnemonic)
    (h : (d.listing c).instructions.map Instruction.plain =
      (d.listing c').instructions.map Instruction.plain) :
    bytesOf (d.listing c).instructions = bytesOf (d.listing c').instructions := by
  fun_induction Decoder.listing d c generalizing c' with
  | case1 d c hw ih =>
    cases hw' : d.hasWork c' with
    | false =>
      rw [listing_done hw'] at h
      simp at h
    | true =>
      rw [listing_step hw'] at h hd' ⊢
      simp only [Listing.instructions_cons, List.map_cons, List.cons.injEq, List.forall_mem_cons,
        bytesOf_cons, next_eq_self hs] at h hd hd' ih ⊢
      have hcode := hl c c' ha hd.1 hd'.1 h.1
      have ha' : (d.advance c).address = (d.advance c').address := by
        rw [address_advance, address_advance, ha, hcode]
      rw [hcode, ih hl hs ha' hd.2 hd'.2 h.2]
  | case2 d c hw =>
    cases hw' : d.hasWork c' with
    | false => rw [listing_done hw']
    | true =>
      rw [listing_step hw'] at h
      simp at h

theorem exists_cursor_of_mem_listing (hs : ∀ w, d ≠ .switching w) (howes : d.owes = false) :
    ∀ i ∈ (d.listing c).instructions, ∃ c', i = d.instruction c' ∧ i.address = c'.address := by
  refine forall_mem_listing (Q := fun e _ => e = d) ?_ rfl
  rintro e c - rfl
  exact ⟨⟨c, rfl, address_instruction (synced_of_owes_eq_false howes)⟩, next_eq_self hs c⟩

end Decoder

theorem lossless_decoder {arch : Architecture}
    (h : arch = .mos6502 ∨ arch = .cmos65C02 ∨ arch = .sweet16) : arch.decoder.Lossless := by
  obtain rfl | rfl | rfl := h
  · exact Decoder.lossless_mos6502 (by decide)
  · exact Decoder.lossless_mos6502 (by decide)
  · exact Decoder.lossless_sweet16

theorem pad_eq_pad {xs ys : List UInt8} {k l : Nat}
    (h : xs ++ List.replicate k 0 = ys ++ List.replicate l 0) :
    xs ++ List.replicate (ys.length - xs.length) 0 =
      ys ++ List.replicate (xs.length - ys.length) 0 := by
  have hlen : xs.length + k = ys.length + l := by
    simpa only [List.length_append, List.length_replicate] using congrArg List.length h
  have htake := congrArg (List.take (max xs.length ys.length)) h
  rw [List.take_append, List.take_append, List.take_of_length_le (Nat.le_max_left _ _),
    List.take_of_length_le (Nat.le_max_right _ _), List.take_replicate, List.take_replicate] at htake
  have hx : min (max xs.length ys.length - xs.length) k = ys.length - xs.length := by omega
  have hy : min (max xs.length ys.length - ys.length) l = xs.length - ys.length := by omega
  rwa [hx, hy] at htake

/-- **A listing without undefined instructions determines its image**, for the 6502, the 65C02 and
SWEET16: two images at one address with the same lines are equal, up to zeros at the end of the
shorter one. For at a given address the line of a defined instruction determines its code. -/
theorem listing_lossless {arch : Architecture}
    (harch : arch = .mos6502 ∨ arch = .cmos65C02 ∨ arch = .sweet16) (x y : Image) :
    let xs := (arch.listing x).instructions
    let ys := (arch.listing y).instructions
    (y.base = x.base → (∀ i ∈ xs, i.mnemonic ≠ "???") → (∀ j ∈ ys, j.mnemonic ≠ "???") →
      xs.map Instruction.plain = ys.map Instruction.plain →
      x.bytes.toList ++ List.replicate (y.size - x.size) 0 =
        y.bytes.toList ++ List.replicate (x.size - y.size) 0) ∧
    ∀ i ∈ xs, ∀ j ∈ ys, i.address = j.address → i.mnemonic ≠ "???" → j.mnemonic ≠ "???" →
      i.plain = j.plain → i.code = j.code := by
  intro xs ys
  have hl := lossless_decoder harch
  have hs : ∀ w, arch.decoder ≠ .switching w :=
    decoder_ne_switching (by obtain rfl | rfl | rfl := harch <;> decide)
  have howes := owes_decoder arch
  refine ⟨fun hb hdx hdy hlines => ?_, fun i hi j hj ha hdi hdj hline => ?_⟩
  · have haddr : Cursor.address { image := x } = Cursor.address { image := y } := by
      unfold Cursor.address Image.addressAt
      rw [hb]
    have hbytes : bytesOf xs = bytesOf ys := hl.bytesOf_listing_eq hs haddr hdx hdy hlines
    obtain ⟨k, hx⟩ : ∃ k, bytesOf xs = x.bytes.toList ++ List.replicate k 0 :=
      (tiling_image arch x (Nat.zero_le _)).code
    obtain ⟨l, hy⟩ : ∃ l, bytesOf ys = y.bytes.toList ++ List.replicate l 0 :=
      (tiling_image arch y (Nat.zero_le _)).code
    have hpad := pad_eq_pad (hx.symm.trans (hbytes.trans hy))
    rwa [Array.length_toList, Array.length_toList] at hpad
  · obtain ⟨c, rfl, hc⟩ := Decoder.exists_cursor_of_mem_listing hs howes i hi
    obtain ⟨c', rfl, hc'⟩ := Decoder.exists_cursor_of_mem_listing hs howes j hj
    exact hl c c' (by rw [← hc, ← hc', ha]) hdi hdj hline

/-- A branch that ends the image, with and without its distance of zero. -/
theorem listing_lossless_truncated_branch :
    let x : Image := { base := 0xFFFE, bytes := #[0xA9, 0x12, 0xF0] }
    let y : Image := { base := 0xFFFE, bytes := #[0xA9, 0x12, 0xF0, 0x00] }
    (Architecture.mos6502.listing x).instructions.map Instruction.plain =
        ["LDA #$12", "BEQ $0002"] ∧
      x.bytes.toList ++ List.replicate (y.size - x.size) 0 =
        y.bytes.toList ++ List.replicate (x.size - y.size) 0 := by
  intro x y
  have hlines : (Architecture.mos6502.listing x).instructions.map Instruction.plain =
      ["LDA #$12", "BEQ $0002"] := by decide +kernel
  refine ⟨hlines, (listing_lossless (Or.inl rfl) x y).1 rfl ?_ ?_ ?_⟩
  · decide +kernel
  · decide +kernel
  · rw [hlines]
    decide +kernel

end Disassembly
