import Disassembly.Proofs.Listing

/-! # Mnemonics

Some mnemonics are reserved for lines that no opcode is read from: bytes that are passed over,
directives, and words of a jump table. No table of an instruction set has one of them, whatever the
opcode, so such a line can be told by its mnemonic.

A table has 256 opcodes, and a fact about its entries is checked on all of them (`forall_byte`). For
p-code the entry is not the last word: the parameters of comparisons and standard calls have a part
in the mnemonic, and `Entry.mnemonics` lists what can become of it. -/

namespace Disassembly

/-- What holds of the bytes from 0 to 255 holds of every byte. -/
theorem forall_byte {p : UInt8 → Prop} (h : ∀ n < 256, p (UInt8.ofNat n)) : ∀ b, p b := by
  intro b
  have hb := h b.toNat b.toNat_lt
  rwa [UInt8.ofNat_toNat] at hb

/-- The mnemonics of lines that no opcode is read from. -/
def reservedMnemonics : List String := [skippedMnemonic, ".6502", ".SWEET16", "J/T"]

/-! ### Tables with one mnemonic for each opcode -/

theorem Mos6502.Variant.mnemonic_entry_notMem (v : Variant) :
    ∀ b, (v.entry b).mnemonic ∉ reservedMnemonics := by
  cases v <;> exact forall_byte (by decide +kernel)

theorem Sweet16.mnemonic_entry_notMem : ∀ b, (entry b).mnemonic ∉ reservedMnemonics :=
  forall_byte (by decide +kernel)

theorem Dialect.mnemonic_decode_notMem (dialect : Dialect) (a : Address) (s : ByteStream) :
    (dialect.decode a s).mnemonic ∉ reservedMnemonics := by
  cases dialect with
  | mos6502 => exact Mos6502.Variant.mnemonic_entry_notMem _ _
  | sweet16 => exact Sweet16.mnemonic_entry_notMem _

namespace Z80

theorem mnemonic_mainForm_notMem : ∀ b, (mainForm b).mnemonic b ∉ reservedMnemonics :=
  forall_byte (by decide +kernel)

theorem Page.mnemonic_form_notMem (p : Page) : ∀ b, (p.form b).mnemonic b ∉ reservedMnemonics := by
  cases p <;> exact forall_byte (by decide +kernel)

/-- A form is the entry of an opcode in one of the tables. -/
def Form.Stands (f : Form) (opcode : UInt8) : Prop :=
  f = mainForm opcode ∨ ∃ p : Page, f = p.form opcode

/-- The entry that a head is read from, with its opcode: behind the opcode of another page it is the
entry of the next byte there. -/
def Head.entry (h : Head) (s : ByteStream) : Form × UInt8 :=
  match mainForm h.opcode with
  | .page p => (p.form (s (h.length - 1)), s (h.length - 1))
  | f => (f, h.opcode)

/-- A head has the mnemonic and the operands of its entry, behind an override too. -/
theorem Head.read_eq_entry (s : ByteStream) :
    ((read s).entry s).1.Stands ((read s).entry s).2 ∧
    (read s).mnemonic = ((read s).entry s).1.mnemonic ((read s).entry s).2 ∧
    (read s).patterns = ((read s).entry s).1.patterns ((read s).entry s).2 := by
  have hopcode : ∀ index opcode n, let h := ofOpcode s index opcode n
      (h.entry s).1.Stands (h.entry s).2 ∧ h.mnemonic = (h.entry s).1.mnemonic (h.entry s).2 ∧
        h.patterns = (h.entry s).1.patterns (h.entry s).2 := by
    intro index opcode n
    cases hf : mainForm opcode with
    | page p =>
      simp only [ofOpcode, entry, hf]
      exact ⟨.inr ⟨p, rfl⟩, rfl, rfl⟩
    | operation | override | undefined =>
      simp only [ofOpcode, entry, hf, and_true]
      exact .inl hf.symm
  unfold read
  split <;> exact hopcode _ _ _

theorem mnemonic_decode_notMem (a : Address) (s : ByteStream) :
    (decode a s).mnemonic ∉ reservedMnemonics := by
  obtain ⟨hf, hname, -⟩ := Head.read_eq_entry s
  show (Head.read s).mnemonic ∉ reservedMnemonics
  rw [hname]
  rcases hf with hf | ⟨p, hf⟩
  · rw [hf]
    exact mnemonic_mainForm_notMem _
  · rw [hf]
    exact p.mnemonic_form_notMem _

end Z80

/-! ### p-code -/

namespace PCode

/-- The additions to the mnemonic of a comparison. -/
def typeSuffixes : List String := ["REAL", "STR", "BOOL", "POWR", "BYT", "WORD", ""]

/-- The mnemonics that the parameters of an entry can lead to. -/
def Entry.mnemonics (e : Entry) : List String :=
  match e.params with
  | [.comparison] => typeSuffixes.map (e.mnemonic ++ ·)
  | [.standardCall] => e.mnemonic :: standardProcedures
  | _ => [e.mnemonic]

/-- Parameters that change the mnemonic. -/
def Param.renames : Param → Bool
  | .comparison | .standardCall => true
  | _ => false

theorem typeSuffix_mem (tag : UInt8) : typeSuffix tag ∈ typeSuffixes := by
  unfold typeSuffix
  split <;> decide

theorem standardProcedure?_mem {number : UInt8} {name : String}
    (h : standardProcedure? number = some name) : name ∈ standardProcedures := by
  unfold standardProcedure? at h
  split at h
  · cases h
  · exact List.mem_of_getElem? h

/-- A parameter that changes the mnemonic is the only one. -/
theorem params_entry : ∀ b, (entry b).params = [.comparison] ∨ (entry b).params = [.standardCall] ∨
    ∀ p ∈ (entry b).params, p.renames = false :=
  forall_byte (by decide +kernel)

namespace Reading

theorem mnemonic_read (c : Cursor) (r : Reading) {p : Param} (h : p.renames = false) :
    (r.read c p).mnemonic = r.mnemonic := by
  cases p with
  | comparison | standardCall => cases h
  | byte | small | jump | big | word | constants | packedArray | string | caseJump => rfl

theorem mnemonic_foldl_read (c : Cursor) : ∀ (ps : List Param) (r : Reading),
    (∀ p ∈ ps, p.renames = false) → (ps.foldl (read c) r).mnemonic = r.mnemonic
  | [], _, _ => rfl
  | p :: ps, r, h => by
    rw [List.foldl_cons, mnemonic_foldl_read c ps _ fun q hq => h q (List.mem_cons_of_mem _ hq)]
    exact mnemonic_read c r (h p List.mem_cons_self)

theorem mnemonic_comparison (c : Cursor) (r : Reading) :
    (r.comparison c).mnemonic = r.mnemonic ++ typeSuffix (c.ahead r.length) := by
  simp only [comparison]
  split <;> rfl

theorem mnemonic_standardCall (c : Cursor) (r : Reading) :
    (r.standardCall c).mnemonic ∈ r.mnemonic :: standardProcedures := by
  simp only [standardCall]
  split
  · next name h => exact List.mem_cons_of_mem _ (standardProcedure?_mem h)
  · exact List.mem_cons_self

end Reading

theorem mnemonic_readOperation_mem (c : Cursor) :
    (readOperation c).mnemonic ∈ (entry (c.ahead 0)).mnemonics := by
  simp only [readOperation, Reading.implied, Reading.extend, Entry.mnemonics]
  rcases params_entry (c.ahead 0) with h | h | h
  · rw [h, List.foldl_cons, List.foldl_nil, Reading.read, Reading.mnemonic_comparison]
    exact List.mem_map.mpr ⟨_, typeSuffix_mem _, rfl⟩
  · rw [h]
    exact Reading.mnemonic_standardCall c _
  · rw [Reading.mnemonic_foldl_read c _ _ h]
    split
    · next hp => rw [hp] at h; exact absurd (h _ List.mem_cons_self) (by decide)
    · exact List.mem_cons_self
    · exact List.mem_cons_self

theorem mnemonics_entry_disjoint :
    ∀ b, ∀ name ∈ (entry b).mnemonics, name ∉ reservedMnemonics :=
  forall_byte (by decide +kernel)

theorem mnemonic_readOperation_notMem (c : Cursor) :
    (readOperation c).mnemonic ∉ reservedMnemonics :=
  mnemonics_entry_disjoint _ _ (mnemonic_readOperation_mem c)

end PCode

/-! ### Bytes that are passed over -/

/-- **No decoder writes a line as if its byte had been passed over.** -/
theorem Decoder.mnemonic_instruction_ne_skipped (d : Decoder) (c : Cursor) :
    (d.instruction c).mnemonic ≠ skippedMnemonic := by
  have hmem : ∀ name, name ∉ reservedMnemonics → name ≠ skippedMnemonic := by
    rintro name h rfl
    exact h List.mem_cons_self
  cases d with
  | mos6502 v => exact hmem _ (v.mnemonic_entry_notMem _)
  | sweet16 => exact hmem _ (Sweet16.mnemonic_entry_notMem _)
  | z80 => exact hmem _ (Z80.mnemonic_decode_notMem _ _)
  | switching w =>
    simp only [instruction, Switching.decode]
    split
    · cases w.dialect <;> simp [Dialect.directive, skippedMnemonic]
    · exact hmem _ (w.dialect.mnemonic_decode_notMem _ _)
  | pcode =>
    show (PCode.read c).mnemonic ≠ skippedMnemonic
    unfold PCode.read
    split
    · show "J/T" ≠ skippedMnemonic
      decide
    · exact hmem _ (PCode.mnemonic_readOperation_notMem c)

end Disassembly
