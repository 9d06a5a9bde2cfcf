import Disassembly.Proofs.Lossless

/-! # Literals and names in the slots of operands

An operand with an address is shown by a template around one slot, and in the slot stands the
literal of the address or a name for it. So the text of an operand and its address belong together:

* `Address.parse_dollarWord`, `Address.parse_dollarByte`: the literal of an address, read as an
  address, gives it back; `Numeral.digits?_wordDigits` says so of the digits alone;
* `Operand.Faithful`: what this means for an operand, and `Decoder.faithful_instruction`: every
  operand that a decoder writes is of this kind, for p-code by one lemma for each parameter;
* `Operand.render_of_slot`: with one slot in the template, the text is the literal or the name
  between the parts of the template before and behind the slot. -/

namespace Disassembly

/-! ### Slots of templates -/

/-- The number of slots in a template. -/
def slotCount : List Char → Nat
  | [] => 0
  | '\x7b' :: '\x7d' :: rest => slotCount rest + 1
  | _ :: rest => slotCount rest

/-- The parts of a template before its first slot and behind it. -/
def aroundSlot : List Char → List Char × List Char
  | [] => ([], [])
  | '\x7b' :: '\x7d' :: rest => ([], rest)
  | c :: rest => (c :: (aroundSlot rest).1, (aroundSlot rest).2)

theorem eq_aroundSlot {cs : List Char} (h : 0 < slotCount cs) :
    cs = (aroundSlot cs).1 ++ slot.toList ++ (aroundSlot cs).2 := by
  fun_induction aroundSlot cs with
  | case1 => exact absurd h (Nat.lt_irrefl 0)
  | case2 rest => rw [toList_slot]; rfl
  | case3 c rest hne ih =>
    rw [slotCount] at h
    · rw [List.cons_append, List.cons_append, ← ih h]
    · exact hne

theorem fillChars_eq {cs : List Char} (h : 0 < slotCount cs) (text : List Char) :
    fillChars text cs = (aroundSlot cs).1 ++ text ++ (aroundSlot cs).2 := by
  fun_induction aroundSlot cs with
  | case1 => exact absurd h (Nat.lt_irrefl 0)
  | case2 rest => rfl
  | case3 c rest hne ih =>
    rw [slotCount] at h
    · rw [fillChars, ih h, List.cons_append, List.cons_append]
      exact hne
    · exact hne

namespace Operand

/-- The text of the template before the slot. -/
def front (o : Operand) : String := String.ofList (aroundSlot o.template.toList).1

/-- The text of the template behind the slot. -/
def back (o : Operand) : String := String.ofList (aroundSlot o.template.toList).2

theorem template_eq_of_slot {o : Operand} (h : 0 < slotCount o.template.toList) :
    o.template = o.front ++ slot ++ o.back := by
  rw [← String.toList_inj, String.toList_append, String.toList_append, front, back,
    String.toList_ofList, String.toList_ofList]
  exact eq_aroundSlot h

/-- What stands in the slot is not looked at again, even if it has a slot in it. -/
theorem render_of_slot {o : Operand} (h : 0 < slotCount o.template.toList)
    (names : Address → Option String) :
    o.render names = o.front ++ (o.address.bind names).getD o.value ++ o.back := by
  rw [render_eq_fill, ← String.toList_inj, toList_fill, String.toList_append, String.toList_append,
    front, back, String.toList_ofList, String.toList_ofList]
  exact fillChars_eq h _

/-- An operand whose text and address belong together: the template has one slot, the literal
denotes the address if there is one, and otherwise the template is the slot alone. -/
structure Faithful (denotes : String → Address → Prop) (o : Operand) : Prop where
  oneSlot : slotCount o.template.toList = 1
  literal : ∀ a, o.address = some a → denotes o.value a
  slotAlone : o.address = none → o.template = slot

variable {denotes : String → Address → Prop}

theorem slotCount_slot : slotCount slot.toList = 1 := by decide

theorem faithful_text (v : String) : (text v).Faithful denotes :=
  ⟨slotCount_slot, nofun, fun _ => rfl⟩

theorem faithful_place {t v : String} {a : Address} (ht : slotCount t.toList = 1)
    (hv : denotes v a) : (place t v a).Faithful denotes := by
  refine ⟨ht, fun b hb => ?_, nofun⟩
  obtain rfl := Option.some.inj hb
  exact hv

theorem faithful_bare {v : String} {a : Address} (hv : denotes v a) :
    (bare v a).Faithful denotes := faithful_place slotCount_slot hv

theorem faithful_bracketed {v : String} {a : Address} (hv : denotes v a) :
    (bracketed v a).Faithful denotes := faithful_place (by decide) hv

theorem faithful_opened {v : String} {a : Address} (hv : denotes v a) :
    (opened v a).Faithful denotes := faithful_place (by decide) hv

end Operand

/-! ### Literals read back -/

namespace Numeral

theorem digit?_digit : ∀ n < 16, digit? 16 (Hex.digit n) = some n := by decide

theorem mapM_digit? : ∀ {ns : List Nat}, (∀ n ∈ ns, n < 16) →
    (ns.map Hex.digit).mapM (digit? 16) = some ns
  | [], _ => rfl
  | n :: ns, h => by
    obtain ⟨hn, hns⟩ := List.forall_mem_cons.mp h
    rw [List.map_cons, List.mapM_cons, digit?_digit n hn, mapM_digit? hns]
    rfl

theorem digits?_map_digit {n : Nat} {ns : List Nat} (h : ∀ k ∈ n :: ns, k < 16) :
    digits? 16 ((n :: ns).map Hex.digit) = some (ofDigits 16 (n :: ns)) := by
  unfold digits?
  rw [mapM_digit? h]
  rfl

theorem digits?_wordDigits (w : UInt16) : digits? 16 (Hex.wordDigits w) = some w.toNat := by
  have hw := w.toNat_lt
  have hdigits := @digits?_map_digit (w.toNat / 4096)
    [w.toNat / 256 % 16, w.toNat / 16 % 16, w.toNat % 16] (by
      simp only [List.forall_mem_cons]
      refine ⟨?_, ?_, ?_, ?_, nofun⟩ <;> omega)
  refine hdigits.trans (congrArg some ?_)
  simp only [ofDigits, List.foldl_cons, List.foldl_nil]
  omega

theorem digits?_byteDigits (b : UInt8) : digits? 16 (Hex.byteDigits b) = some b.toNat := by
  have hb := b.toNat_lt
  have hdigits := @digits?_map_digit (b.toNat / 16) [b.toNat % 16] (by
      simp only [List.forall_mem_cons]
      refine ⟨?_, ?_, nofun⟩ <;> omega)
  refine hdigits.trans (congrArg some ?_)
  simp only [ofDigits, List.foldl_cons, List.foldl_nil]
  omega

theorem value?_of_ne_plus {radix : Nat} {c : Char} (h : c ≠ '+') (cs : List Char) :
    value? radix (c :: cs) = digits? radix (c :: cs) := by
  unfold value?
  split
  · next heq => exact absurd (List.cons.inj heq).1 h
  · rfl

end Numeral

theorem Blank.trim_eq_self {cs : List Char} (h : ∀ c ∈ cs, isBlank c = false) : trim cs = cs := by
  have hdrop : ∀ {ds : List Char}, (∀ c ∈ ds, isBlank c = false) → ds.dropWhile isBlank = ds := by
    rintro (_ | ⟨c, ds⟩) hds
    · rfl
    · rw [List.dropWhile_cons, hds c List.mem_cons_self]
      rfl
  unfold trim
  rw [hdrop h, hdrop fun c hc => h c (List.mem_reverse.mp hc), List.reverse_reverse]

namespace Address

set_option maxRecDepth 2000 in
theorem isBlank_hexDigit {c : Char} (hc : c ∈ hexDigits) : Blank.isBlank c = false := by
  have hnone : hexDigits.any Blank.isBlank = false := by decide
  exact Bool.eq_false_iff.mpr (List.any_eq_false.mp hnone c hc)

/-- Digits behind a dollar sign, read as an address. -/
theorem parse_dollar {text : String} {c : Char} {cs : List Char} {n : Nat} {a : Address}
    (htext : text.toList = '$' :: c :: cs) (hds : IsDigits (c :: cs) n)
    (hvalue : Numeral.digits? 16 (c :: cs) = some a.toNat) : parse text = .ok a := by
  have hplus : c ≠ '+' := by
    rintro rfl
    exact absurd (hds.1 _ List.mem_cons_self) (by decide)
  have htrim : Blank.trim text.toList = '$' :: c :: cs := by
    rw [htext]
    refine Blank.trim_eq_self ?_
    rw [List.forall_mem_cons]
    exact ⟨by decide, fun d hd => isBlank_hexDigit (hds.1 d hd)⟩
  have hnumber : number? ('$' :: c :: cs) = some a.toNat := by
    rw [number?, Numeral.value?_of_ne_plus hplus, hvalue]
  have hparse : parse? text = some a := by
    unfold parse?
    rw [htrim, hnumber, Option.filter_some, if_pos (decide_eq_true a.toNat_lt), Option.map_some,
      UInt16.ofNat_toNat]
  unfold parse
  rw [hparse]

theorem parse_dollarWord (a : Address) : parse (dollarWord a) = .ok a := by
  refine parse_dollar (c := Hex.digit (a.toNat / 4096)) ?_ (Hex.isDigits_wordDigits a)
    (Numeral.digits?_wordDigits a)
  rw [dollarWord, String.toList_append, Hex.toList_word]
  rfl

theorem parse_dollarByte (b : UInt8) : parse (dollarByte b) = .ok b.toUInt16 := by
  refine parse_dollar (c := Hex.digit (b.toNat / 16)) ?_ (Hex.isDigits_byteDigits b) ?_
  · rw [dollarByte, String.toList_append, Hex.toList_byte]
    rfl
  · rw [UInt8.toNat_toUInt16]
    exact Numeral.digits?_byteDigits b

end Address

/-- A text that is read as an address. -/
def Parses (text : String) (a : Address) : Prop := Address.parse text = .ok a

/-- Four upper-case digits of an address in front of an `H`. -/
def Suffixed (text : String) (a : Address) : Prop :=
  ∃ ds, text.toList = ds ++ ['H'] ∧ IsDigits ds 4 ∧ Numeral.digits? 16 ds = some a.toNat

theorem Z80.suffixed_wordText (a : Address) : Suffixed (wordText a) a := by
  refine ⟨Hex.wordDigits a, ?_, Hex.isDigits_wordDigits a, Numeral.digits?_wordDigits a⟩
  rw [wordText, String.toList_append, Hex.toList_word]
  rfl

/-! ### Instruction sets -/

open Operand (faithful_text faithful_bare faithful_bracketed faithful_opened)

theorem Mos6502.Mode.faithful_operands (mode : Mode) (a : Address) (s : ByteStream) :
    ∀ o ∈ mode.operands a s, o.Faithful Parses := by
  have hword : ∀ w, Parses (Address.dollarWord w) w := Address.parse_dollarWord
  have hbyte : Parses (Address.dollarByte (s 1)) (s 1).toUInt16 := Address.parse_dollarByte _
  cases mode with
  | implicit | accumulator | undefined1 => nofun
  | immediate => simp [operands, faithful_text]
  | relative | absolute | absoluteX | absoluteY | undefined3 =>
    simp [operands, faithful_bare (hword _), faithful_text]
  | zeroPage | zeroPageX | zeroPageY | undefined2 =>
    simp [operands, faithful_bare hbyte, faithful_text]
  | indirect => simp [operands, faithful_bracketed (hword _)]
  | absoluteIndexedIndirect => simp [operands, faithful_opened (hword _), faithful_text]
  | zeroPageIndirect | indirectY => simp [operands, faithful_bracketed hbyte, faithful_text]
  | indirectX => simp [operands, faithful_opened hbyte, faithful_text]

theorem Sweet16.Shape.faithful_operands (shape : Shape) (a : Address) (s : ByteStream) :
    ∀ o ∈ shape.operands a s, o.Faithful Parses := by
  have hword : ∀ w, Parses (Address.dollarWord w) w := Address.parse_dollarWord
  cases shape with
  | implied => nofun
  | constant | direct | indirect => simp [operands, faithful_text]
  | branch => simp [operands, faithful_bare (hword _)]

theorem Dialect.faithful_decode (dialect : Dialect) (a : Address) (s : ByteStream) :
    ∀ o ∈ (dialect.decode a s).operands, o.Faithful Parses := by
  cases dialect with
  | mos6502 => exact Mos6502.Mode.faithful_operands _ a s
  | sweet16 => exact Sweet16.Shape.faithful_operands _ a s

theorem Z80.Head.faithful_operand (h : Head) (a : Address) (s : ByteStream) (p : Pattern) :
    (h.operand a s p).Faithful Suffixed := by
  cases p with
  | fixed | hl | atHl | word | byte | device => exact faithful_text _
  | address | offset => exact faithful_bare (suffixed_wordText _)
  | atAddress => exact faithful_bracketed (suffixed_wordText _)

namespace PCode

/-- All operands read so far have texts and addresses that belong together. -/
def Reading.Faithful (r : Reading) : Prop := ∀ o ∈ r.operands, o.Faithful Parses

namespace Reading

variable {c : Cursor} {r : Reading}

theorem faithful_decimal (n : Nat) : (decimal n).Faithful Parses := faithful_text _

theorem faithful_placeOf (a : Address) : (placeOf a).Faithful Parses :=
  faithful_bare (Address.parse_dollarWord a)

theorem Faithful.extend (h : r.Faithful) (n : Nat) {os : List Operand}
    (hos : ∀ o ∈ os, o.Faithful Parses) : (r.extend n os).Faithful :=
  List.forall_mem_append.mpr ⟨h, hos⟩

theorem Faithful.extend_one (h : r.Faithful) (n : Nat) {o : Operand} (ho : o.Faithful Parses) :
    (r.extend n [o]).Faithful :=
  h.extend n (List.forall_mem_singleton.mpr ho)

theorem Faithful.big (h : r.Faithful) : (r.big c).Faithful := h.extend_one _ (faithful_decimal _)

/-- **One parameter.** -/
theorem Faithful.read (h : r.Faithful) (p : Param) : (r.read c p).Faithful := by
  cases p with
  | byte | small | word => exact h.extend_one _ (faithful_decimal _)
  | jump => exact Faithful.extend_one (r := r.jumped _ _) h _ (faithful_placeOf _)
  | big => exact h.big
  | packedArray | string => exact h.extend_one _ (faithful_text _)
  | comparison =>
    have htag : ({ r with mnemonic := r.mnemonic ++ typeSuffix (c.ahead r.length) }.extend 1
        []).Faithful := Faithful.extend (r := { r with mnemonic := _ }) h 1 nofun
    simp only [Reading.read, comparison]
    split
    · exact htag.big
    · exact htag
  | standardCall =>
    simp only [Reading.read, standardCall]
    split
    · exact Faithful.extend (r := { r with mnemonic := _ }) h 1 nofun
    · exact h.extend_one _ (faithful_decimal _)
  | constants =>
    refine List.forall_mem_append.mpr ⟨h, List.forall_mem_cons.mpr ⟨faithful_decimal _, ?_⟩⟩
    exact List.forall_mem_map.mpr fun _ _ => faithful_decimal _
  | caseJump =>
    refine List.forall_mem_append.mpr ⟨h, List.forall_mem_cons.mpr ⟨faithful_text _,
      List.forall_mem_cons.mpr ⟨faithful_text _, ?_⟩⟩⟩
    exact List.forall_mem_map.mpr fun _ _ => faithful_placeOf _

/-- All parameters. -/
theorem Faithful.foldl_read : ∀ {r : Reading}, r.Faithful → ∀ ps : List Param,
    (ps.foldl (Reading.read c) r).Faithful
  | _, h, [] => h
  | _, h, p :: ps => (h.read p).foldl_read ps

end Reading

theorem faithful_read (c : Cursor) : (read c).Faithful := by
  unfold read
  split
  · exact List.forall_mem_singleton.mpr (Reading.faithful_placeOf _)
  · have hstart : Reading.Faithful
        { length := 1, mark := c.mark, mnemonic := (entry (c.ahead 0)).mnemonic } :=
      List.forall_mem_nil _
    refine (hstart.foldl_read _).extend 0 ?_
    exact List.forall_mem_map.mpr fun _ _ => Reading.faithful_decimal _

end PCode

/-! ### Lines of a listing -/

namespace Decoder

theorem faithful_instruction {d : Decoder} (hd : d ≠ .z80) (c : Cursor) :
    ∀ o ∈ (d.instruction c).operands, o.Faithful Parses := by
  cases d with
  | mos6502 v => exact Mos6502.Mode.faithful_operands _ _ _
  | sweet16 => exact Sweet16.Shape.faithful_operands _ _ _
  | z80 => exact absurd rfl hd
  | pcode => exact PCode.faithful_read c
  | switching w =>
    simp only [instruction, Switching.decode]
    split
    · cases w.dialect <;> exact List.forall_mem_nil _
    · exact w.dialect.faithful_decode _ _

theorem next_eq_z80_iff (d : Decoder) (c : Cursor) : d.next c = .z80 ↔ d = .z80 := by
  cases d with
  | switching w => exact ⟨nofun, nofun⟩
  | mos6502 | sweet16 | z80 | pcode => exact Iff.rfl

end Decoder

/-- How the operands of an architecture write an address: the Z80 with four digits in front of an
`H`, the others so that the literal can be read as an address. -/
def Architecture.Denotes (arch : Architecture) : String → Address → Prop :=
  if arch = .z80 then Suffixed else Parses

theorem faithful_of_mem_listing (arch : Architecture) (m : Image) :
    ∀ i ∈ (arch.listing m).instructions, ∀ o ∈ i.operands, o.Faithful arch.Denotes := by
  have hz80 : arch.decoder = .z80 ↔ arch = .z80 := by
    cases arch <;> simp [Architecture.decoder]
  refine Decoder.forall_mem_listing (Q := fun d _ => d = .z80 ↔ arch = .z80) ?_ hz80
  intro d c _ hd
  refine ⟨?_, (d.next_eq_z80_iff c).trans hd⟩
  unfold Architecture.Denotes
  by_cases h : arch = .z80
  · rw [if_pos h, hd.mpr h]
    exact List.forall_mem_map.mpr fun p _ => Z80.Head.faithful_operand _ _ _ p
  · rw [if_neg h]
    exact Decoder.faithful_instruction (fun hd' => h (hd.mp hd')) c

namespace Instruction

variable {i : Instruction}

theorem renderOperands_congr {names names' : Address → Option String}
    (h : ∀ o ∈ i.operands, ∀ a, o.address = some a → names a = names' a) :
    i.renderOperands names = i.renderOperands names' := by
  have hmap : i.operands.map (Operand.render names) = i.operands.map (Operand.render names') := by
    refine List.map_congr_left fun o ho => ?_
    rw [Operand.render_eq_fill, Operand.render_eq_fill]
    cases ha : o.address with
    | none => rfl
    | some a => rw [Option.bind_some, Option.bind_some, h o ho a ha]
  unfold renderOperands
  rw [hmap]

theorem render_congr {names names' : Address → Option String}
    (h : ∀ o ∈ i.operands, ∀ a, o.address = some a → names a = names' a) :
    i.render names = i.render names' := by
  unfold render
  rw [renderOperands_congr h]

theorem renderOperands_of_slot (h : ∀ o ∈ i.operands, 0 < slotCount o.template.toList)
    (names : Address → Option String) :
    i.renderOperands names = ",".intercalate (i.operands.map fun o =>
      o.front ++ (o.address.bind names).getD o.value ++ o.back) := by
  unfold renderOperands
  rw [List.map_congr_left fun o ho => Operand.render_of_slot (h o ho) names]

end Instruction

/-- **Names only fill slots.** In every line of a listing the template of an operand has one slot.
With an address in the operand, the literal denotes this address; without one, the template is the
slot alone, and the operand is shown by its text, whatever this is. The operands of the line are
shown with the literals in the slots, and with the names of a map by putting, where the map has a
name for the address of an operand, the name in the place of the literal, and changing nothing else.
So only the names of these addresses count. -/
theorem names_fill_slots {arch : Architecture} {m : Image} {i : Instruction}
    (hi : i ∈ (arch.listing m).instructions) :
    (∀ o ∈ i.operands, slotCount o.template.toList = 1 ∧ o.template = o.front ++ slot ++ o.back ∧
      (∀ a, o.address = some a → arch.Denotes o.value a) ∧
      (o.address = none → o.template = slot ∧ ∀ names, o.render names = o.value)) ∧
    (i.renderOperands fun _ => none) =
      ",".intercalate (i.operands.map fun o => o.front ++ o.value ++ o.back) ∧
    (∀ names : LabelMap, i.renderOperands names.get? =
      ",".intercalate (i.operands.map fun o =>
        o.front ++ (o.address.bind names.get?).getD o.value ++ o.back)) ∧
    (∀ names names' : LabelMap,
      (∀ o ∈ i.operands, ∀ a, o.address = some a → names.get? a = names'.get? a) →
      i.render names.get? = i.render names'.get?) ∧
    ∀ names : LabelMap, (∀ o ∈ i.operands, ∀ a, o.address = some a → names.get? a = none) →
      i.render names.get? = i.plain := by
  have hfaithful := faithful_of_mem_listing arch m i hi
  have hpos : ∀ o ∈ i.operands, 0 < slotCount o.template.toList :=
    fun o ho => (hfaithful o ho).oneSlot ▸ Nat.one_pos
  refine ⟨fun o ho => ⟨(hfaithful o ho).oneSlot, Operand.template_eq_of_slot (hpos o ho),
    (hfaithful o ho).literal, fun ha => ⟨(hfaithful o ho).slotAlone ha, fun names => ?_⟩⟩, ?_,
    fun names => Instruction.renderOperands_of_slot hpos _,
    fun _ _ => Instruction.render_congr, fun _ => Instruction.render_congr⟩
  · rw [Operand.render_eq_fill, (hfaithful o ho).slotAlone ha, ha, fill_slot]
    rfl
  · have hnone : ∀ o : Operand, (o.address.bind fun _ => (none : Option String)) = none :=
      fun o => by cases o.address <;> rfl
    rw [Instruction.renderOperands_of_slot hpos]
    simp only [hnone, Option.getD_none]

/-- A name with a slot and a comma in it, shown in the brackets of an operand, and names for another
address. -/
theorem names_fill_slots_brackets :
    let m : Image := { base := 0x0300, bytes := #[0xB1, 0x40] }
    let load : Instruction :=
      { address := 0x0300, code := [0xB1, 0x40], mnemonic := "LDA",
        operands := [.bracketed "$40" 0x0040, .text "Y"] }
    let names := LabelMap.empty.put 0x0040 "\x7b\x7d,X"
    let others := LabelMap.empty.put 0x0041 "HIGH"
    load ∈ (Architecture.mos6502.listing m).instructions ∧
      Address.parse "$40" = .ok 0x0040 ∧
      load.renderOperands names.get? = "(\x7b\x7d,X),Y" ∧
      load.render (names.put 0x0041 "HIGH").get? = load.render names.get? ∧
      load.render others.get? = load.plain := by
  intro m load names others
  have hlisting : (Architecture.mos6502.listing m).instructions = [load] := by
    rw [Architecture.listing, Decoder.listing_step (by decide), Decoder.listing_done (by decide)]
    decide
  have hload : load ∈ (Architecture.mos6502.listing m).instructions := by
    rw [hlisting]
    exact List.mem_cons_self
  have haddress : ∀ o ∈ load.operands, ∀ a, o.address = some a → a = 0x0040 := by
    simp [load, Operand.bracketed, Operand.address]
  have hname : names.get? 0x0040 = some "\x7b\x7d,X" := by
    rw [LabelMap.get?_put, if_pos rfl]
  obtain ⟨hoperands, -, hnames, hagree, hnone⟩ := names_fill_slots hload
  obtain ⟨-, -, hparse, -⟩ := hoperands (.bracketed "$40" 0x0040) List.mem_cons_self
  refine ⟨hload, hparse 0x0040 rfl, ?_, hagree _ _ ?_, hnone _ ?_⟩
  · rw [hnames names]
    simp only [load, List.map_cons, List.map_nil, Operand.bracketed, Operand.address,
      Option.bind_some, Option.bind_none, hname, Option.getD_some, Option.getD_none]
    decide
  · intro o ho a ha
    rw [haddress o ho a ha, LabelMap.get?_put, if_neg (by decide)]
  · intro o ho a ha
    rw [haddress o ho a ha, LabelMap.get?_put, if_neg (by decide), LabelMap.get?_empty]

end Disassembly
