import Disassembly.Proofs.Lossless
import Disassembly.Proofs.References

/-! # The operand texts of the Z80

The patterns of an opcode say how its operands are shown and how many bytes they are read from. What
is shown is written out in full, and all bytes that are read are shown:

* `Head.shown`: the characters of an operand, pattern by pattern (`Head.toList_render_operand`);
* `Head.isCapital_of_shown`, `Head.not_infix_shown`: these are no lower-case letters, and behind an
  override they do not have `HL` among them;
* `Head.data_eq_of_shown_eq`: an operand shows the bytes that it is read from;
* `eq_of_intercalate_eq`: texts of known lengths can be told from their sequence with commas;
* `code_eq_of_plain_eq`: so the line of a plain instruction with known opcode bytes determines its
  code. -/

namespace Disassembly

/-- Whether a character is one of ASCII and no lower-case letter. -/
def isCapital (c : Char) : Bool := decide (c.toNat < 128) && !c.isLower

/-- Texts of the same lengths in a sequence can be told from the sequence. -/
theorem eq_of_intercalate_eq {sep : String} : ∀ {xs ys : List String},
    xs.map (fun x => x.toList.length) = ys.map (fun y => y.toList.length) →
    sep.intercalate xs = sep.intercalate ys → xs = ys
  | [], [], _, _ => rfl
  | [], _ :: _, hlen, _ | _ :: _, [], hlen, _ => by simp at hlen
  | [x], [y], _, h => by
    rw [String.intercalate_singleton, String.intercalate_singleton] at h
    rw [h]
  | [_], _ :: _ :: _, hlen, _ | _ :: _ :: _, [_], hlen, _ => by simp at hlen
  | x :: x' :: xs, y :: y' :: ys, hlen, h => by
    obtain ⟨hx, hlen'⟩ := List.cons.inj hlen
    have hlist := congrArg String.toList h
    rw [String.intercalate_cons_cons, String.intercalate_cons_cons, String.append_assoc,
      String.append_assoc, String.toList_append, String.toList_append, String.toList_append,
      String.toList_append] at hlist
    obtain ⟨heq, hrest⟩ := List.append_inj hlist hx
    have hrest' := List.append_cancel_left hrest
    rw [String.toList_inj] at heq hrest'
    rw [heq, eq_of_intercalate_eq hlen' hrest']

theorem joined_eq_of_operandText_eq {os ps : List Operand} (h : operandText os = operandText ps) :
    ",".intercalate (os.map (Operand.render fun _ => none)) =
      ",".intercalate (ps.map (Operand.render fun _ => none)) := by
  rw [← String.toList_inj]
  unfold operandText at h
  dsimp only at h
  split at h
  · next hos =>
    split at h
    · next hps => rw [hos, hps]
    · cases h
  · split at h
    · cases h
    · exact (List.cons.inj h).2

theorem ByteStream.agree_of_take_eq {s t : ByteStream} {n : Nat} (h : s.take n = t.take n) :
    s.Agree t n := by
  intro k hk
  have hget := congrArg (·[k]?) h
  simpa only [getElem?_take, if_pos hk, Option.some.injEq] using hget

theorem Address.move_signed_inj {a : Address} {b b' : UInt8}
    (h : a.move (signed b) = a.move (signed b')) : b = b' := by
  refine branch_inj (a := a - 2) ?_
  unfold branch
  rwa [UInt16.sub_add_cancel]

namespace Z80

/-! ### Operands as they are shown -/

namespace Head

variable {h : Head} {a : Address} {s t : ByteStream} {p : Pattern}

/-- The characters that an operand is shown by, without names for addresses. -/
def shown (h : Head) (a : Address) (s : ByteStream) : Pattern → List Char
  | .fixed t => t.toList
  | .hl => h.pairText.toList
  | .atHl => (h.memoryText s).toList
  | .word | .address => Hex.wordDigits (s.word h.length) ++ ['H']
  | .atAddress => '(' :: (Hex.wordDigits (s.word h.length) ++ ['H', ')'])
  | .byte => Hex.byteDigits (s h.length) ++ ['H']
  | .offset => Hex.wordDigits (h.jumpTarget a s) ++ ['H']
  | .device => '(' :: (Hex.byteDigits (s h.length) ++ ['H', ')'])

theorem toList_render_operand (h : Head) (a : Address) (s : ByteStream) (p : Pattern) :
    ((h.operand a s p).render fun _ => none).toList = h.shown a s p := by
  cases p <;>
    simp [operand, shown, Operand.render, Operand.bare, Operand.bracketed, toList_fill,
      toList_slot, fillChars, wordText, byteText]

/-- The characters of a text that the opcode alone fixes. -/
def fixedChars : Pattern → List Char
  | .fixed t => t.toList
  | _ => []

set_option maxRecDepth 4000 in
theorem fixedChars_read (s : ByteStream) : ∀ p ∈ (read s).patterns,
    (fixedChars p).all isCapital = true ∧ ('L' ∉ fixedChars p ∨ 'H' ∉ fixedChars p) := by
  refine forall_patterns_read (P := fun ps => ∀ p ∈ ps,
    (fixedChars p).all isCapital = true ∧ ('L' ∉ fixedChars p ∨ 'H' ∉ fixedChars p))
    (forall_byte (by decide)) (fun p => ?_) s
  cases p <;> exact forall_byte (by decide)

/-- The characters of operands that the opcode alone does not fix, except for the `L` in `HL`. -/
def alphabet : List Char := hexDigits ++ ['H', 'I', 'X', 'Y', '(', ')', '+', '-']

theorem subset_alphabet_of_isDigits {ds : List Char} {n : Nat} (hds : IsDigits ds n) :
    ds ⊆ alphabet :=
  fun c hc => List.mem_append_left _ (hds.1 c hc)

theorem name_subset_alphabet (i : Index) : i.name.toList ⊆ alphabet := by
  cases i <;> decide

theorem displaced_subset_alphabet (i : Index) (d : Int) : (i.displaced d).toList ⊆ alphabet := by
  have hdisplaced : (i.displaced d).toList =
      '(' :: (i.name.toList ++ (if d < 0 then '-' else '+') ::
        (Hex.byteDigits (UInt8.ofNat d.natAbs) ++ ['H', ')'])) := by
    unfold Index.displaced
    split <;> simp
  have hbyte := fun b => subset_alphabet_of_isDigits (Hex.isDigits_byteDigits b)
  rw [hdisplaced, List.cons_subset, List.append_subset, List.cons_subset, List.append_subset]
  refine ⟨by decide, name_subset_alphabet i, ?_, hbyte _, by decide⟩
  split <;> decide

theorem mem_alphabet_of_shown (hp : ∀ t, p ≠ .fixed t) :
    ∀ c ∈ h.shown a s p, c ∈ alphabet ∨ h.index = none ∧ c = 'L' := by
  have hword := fun w => subset_alphabet_of_isDigits (Hex.isDigits_wordDigits w)
  have hbyte := fun b => subset_alphabet_of_isDigits (Hex.isDigits_byteDigits b)
  -- Without an override the letters of `HL` come in.
  have hpair : ∀ t : String, t.toList ⊆ 'L' :: alphabet → h.index = none →
      ∀ c ∈ t.toList, c ∈ alphabet ∨ h.index = none ∧ c = 'L' := by
    intro t ht hi c hc
    exact (List.mem_cons.mp (ht hc)).symm.imp_right fun hl => ⟨hi, hl⟩
  cases p with
  | fixed t => exact absurd rfl (hp t)
  | word | address | offset =>
    exact fun c hc => .inl (List.append_subset.mpr ⟨hword _, by decide⟩ hc)
  | byte => exact fun c hc => .inl (List.append_subset.mpr ⟨hbyte _, by decide⟩ hc)
  | atAddress =>
    exact fun c hc => .inl (List.cons_subset.mpr
      ⟨by decide, List.append_subset.mpr ⟨hword _, by decide⟩⟩ hc)
  | device =>
    exact fun c hc => .inl (List.cons_subset.mpr
      ⟨by decide, List.append_subset.mpr ⟨hbyte _, by decide⟩⟩ hc)
  | hl =>
    simp only [shown, pairText]
    split
    · next hi => exact hpair "HL" (by decide) hi
    · exact fun c hc => .inl (name_subset_alphabet _ hc)
  | atHl =>
    have hjump : ∀ i : Index, ("(" ++ i.name ++ ")").toList ⊆ alphabet := by
      intro i
      cases i <;> decide
    simp only [shown, memoryText]
    split
    · next hi => exact hpair "(HL)" (by decide) hi
    · split
      · exact fun c hc => .inl (hjump _ hc)
      · exact fun c hc => .inl (displaced_subset_alphabet _ _ hc)

/-- **No placeholder is left over**: no operand has a lower-case letter. -/
theorem isCapital_of_shown (hp : p ∈ (read s).patterns) :
    ∀ c ∈ (read s).shown a s p, isCapital c = true := by
  have halphabet : alphabet.all isCapital = true := by decide
  by_cases hf : ∃ t, p = .fixed t
  · obtain ⟨t, rfl⟩ := hf
    exact List.all_eq_true.mp (fixedChars_read s _ hp).1
  · intro c hc
    rcases mem_alphabet_of_shown (fun t ht => hf ⟨t, ht⟩) c hc with hc | ⟨-, rfl⟩
    · exact List.all_eq_true.mp halphabet c hc
    · decide

/-- Behind an override no operand has the name of the pair that the index register replaces. -/
theorem not_infix_shown {i : Index} (hp : p ∈ (read s).patterns) (hi : (read s).index = some i) :
    ¬ "HL".toList <:+: (read s).shown a s p := by
  intro hinfix
  have hh : 'H' ∈ (read s).shown a s p := hinfix.subset (by decide)
  have hl : 'L' ∈ (read s).shown a s p := hinfix.subset (by decide)
  by_cases hf : ∃ t, p = .fixed t
  · obtain ⟨t, rfl⟩ := hf
    exact (fixedChars_read s _ hp).2.elim (fun h => h hl) (fun h => h hh)
  · rcases mem_alphabet_of_shown (fun t ht => hf ⟨t, ht⟩) 'L' hl with hl | ⟨hnone, -⟩
    · exact absurd hl (by decide)
    · rw [hi] at hnone
      cases hnone

/-! ### What an operand shows -/

/-- Without an override the length of an operand does not depend on the bytes. -/
theorem length_shown (hi : h.index = none) (p : Pattern) :
    (h.shown a s p).length = (h.shown a t p).length := by
  cases p <;> simp [shown, memoryText, hi]

/-- **An operand shows all bytes that it is read from.** -/
theorem data_eq_of_shown_eq (heq : h.shown a s p = h.shown a t p) :
    ∀ k < p.size, s (h.length + k) = t (h.length + k) := by
  have hword : s.word h.length = t.word h.length →
      ∀ k < 2, s (h.length + k) = t (h.length + k) := by
    intro hw k hk
    obtain ⟨hlow, hhigh⟩ := littleEndian_inj hw
    obtain rfl | rfl : k = 0 ∨ k = 1 := by omega
    · exact hlow
    · exact hhigh
  have hbyte : s h.length = t h.length → ∀ k < 1, s (h.length + k) = t (h.length + k) := by
    intro hb k hk
    obtain rfl : k = 0 := by omega
    exact hb
  cases p with
  | fixed | hl | atHl => nofun
  | word | address => exact hword (Hex.wordDigits_inj (List.append_cancel_right heq))
  | atAddress =>
    exact hword (Hex.wordDigits_inj (List.append_cancel_right (List.cons.inj heq).2))
  | byte => exact hbyte (Hex.byteDigits_inj (List.append_cancel_right heq))
  | device => exact hbyte (Hex.byteDigits_inj (List.append_cancel_right (List.cons.inj heq).2))
  | offset =>
    have htarget : h.jumpTarget a s = h.jumpTarget a t :=
      Hex.wordDigits_inj (List.append_cancel_right heq)
    exact hbyte (Address.move_signed_inj htarget)

theorem exists_size_pos : ∀ {ps : List Pattern}, 0 < ps.foldr (fun p n => p.size + n) 0 →
    ∃ p ∈ ps, 0 < p.size
  | [], h => absurd h (Nat.lt_irrefl 0)
  | p :: ps, h => by
    by_cases hp : 0 < p.size
    · exact ⟨p, List.mem_cons_self, hp⟩
    · have hrest : 0 < ps.foldr (fun p n => p.size + n) 0 := by
        rw [List.foldr_cons] at h
        omega
      obtain ⟨q, hq, hpos⟩ := exists_size_pos hrest
      exact ⟨q, List.mem_cons_of_mem p hq, hpos⟩

end Head

/-! ### Plain instructions -/

section Plain

variable {a : Address} {s t : ByteStream}

/-- The opcode bytes of an instruction without override: the first byte, and behind `CB` and `ED`
the second one too. -/
def opcodeBytes : List UInt8 → List UInt8
  | [] => []
  | b :: rest => if b = 0xCB ∨ b = 0xED then b :: rest.take 1 else [b]

theorem head?_opcodeBytes (code : List UInt8) : (opcodeBytes code).head? = code.head? := by
  cases code with
  | nil => rfl
  | cons b rest =>
    rw [opcodeBytes]
    split <;> rfl

theorem Head.length_read_of_plain (hplain : ∀ i : Index, s 0 ≠ i.opcode) :
    (Head.read s).length = if s 0 = 0xCB ∨ s 0 = 0xED then 2 else 1 := by
  rw [read_of_plain hplain]
  by_cases hpage : ∃ p : Page, s 0 = p.opcode
  · rw [if_pos ((exists_page_opcode_iff _).mp hpage)]
    obtain ⟨p, hp⟩ := hpage
    simp [ofOpcode, hp, mainForm_page, innerAt]
  · rw [if_neg fun hor => hpage ((exists_page_opcode_iff _).mpr hor)]
    cases hf : mainForm (s 0) with
    | page p => exact absurd ⟨p, eq_opcode_of_mainForm_page p _ hf⟩ hpage
    | operation | override | undefined => simp [ofOpcode, hf, innerAt]

theorem opcodeBytes_code (hplain : ∀ i : Index, s 0 ≠ i.opcode) :
    opcodeBytes (decode a s).code = s.take (Head.read s).length := by
  have hle : (Head.read s).length ≤ (Head.read s).codeLength := by
    unfold Head.codeLength
    omega
  obtain ⟨n, hn⟩ := Nat.exists_eq_add_of_le hle
  show opcodeBytes (s.take (Head.read s).codeLength) = _
  rw [hn, Head.length_read_of_plain hplain, ByteStream.take_add]
  by_cases hpage : s 0 = 0xCB ∨ s 0 = 0xED
  · rw [if_pos hpage]
    simp [ByteStream.take, opcodeBytes, hpage, List.range_succ]
  · rw [if_neg hpage]
    simp [ByteStream.take, opcodeBytes, hpage, List.range_succ]

/-- Without an override the texts of the operands tell the operand bytes. -/
theorem Head.data_eq_of_operandText_eq {h : Head} (hi : h.index = none)
    (heq : operandText (h.patterns.map (h.operand a s)) =
      operandText (h.patterns.map (h.operand a t))) :
    ∀ p ∈ h.patterns, ∀ k < p.size, s (h.length + k) = t (h.length + k) := by
  have hjoined := joined_eq_of_operandText_eq heq
  rw [List.map_map, List.map_map] at hjoined
  have htexts := eq_of_intercalate_eq ?_ hjoined
  · intro p hp
    have hp' := congrArg String.toList (List.map_inj_left.mp htexts p hp)
    simp only [Function.comp_apply, toList_render_operand] at hp'
    exact data_eq_of_shown_eq hp'
  · rw [List.map_map, List.map_map]
    refine List.map_congr_left fun p _ => ?_
    simp only [Function.comp_apply, toList_render_operand]
    exact length_shown hi p

/-- **At a given address the line of a plain instruction and its opcode bytes determine its
code.** -/
theorem code_eq_of_plain_eq (hplain : ∀ i : Index, s 0 ≠ i.opcode)
    (hopcode : s.take (Head.read s).length = t.take (Head.read t).length)
    (h : (decode a s).plain = (decode a t).plain) : (decode a s).code = (decode a t).code := by
  have hlen : (Head.read s).length = (Head.read t).length := by
    simpa only [ByteStream.length_take] using congrArg List.length hopcode
  rw [← hlen] at hopcode
  have hagree : s.Agree t (Head.read s).length := ByteStream.agree_of_take_eq hopcode
  have hread : Head.read t = Head.read s := Head.read_congr hagree
  have hi := (Head.index_read_of_plain hplain).1
  have hline := congrArg String.toList h
  rw [Instruction.toList_plain, Instruction.toList_plain] at hline
  simp only [decode, hread] at hline ⊢
  have hdata := Head.data_eq_of_operandText_eq hi (List.append_cancel_left hline)
  refine ByteStream.take_congr fun k hk => ?_
  rw [Head.codeLength_of_plain hi] at hk
  by_cases hhead : k < (Head.read s).length
  · exact hagree k hhead
  -- A byte behind the head belongs to the only operand that is read from such bytes.
  · have hpos : 0 < (Head.read s).dataLength := by omega
    obtain ⟨p, hp, hsize⟩ := Head.exists_size_pos hpos
    have hone := (Head.patterns_read_data s).1 p hp hsize
    obtain ⟨d, rfl⟩ := Nat.exists_eq_add_of_le (Nat.le_of_not_lt hhead)
    exact hdata p hp d (by omega)

theorem head?_code (a : Address) (s : ByteStream) : (decode a s).code.head? = some (s 0) := by
  have hpos := length_code_decode_pos a s
  rw [length_code_decode] at hpos
  show (s.take (Head.read s).codeLength).head? = _
  rw [List.head?_eq_getElem?, ByteStream.getElem?_take, if_pos hpos]

/-- What the operands of one instruction look like. -/
theorem render_operands_decode (a : Address) (s : ByteStream) : ∀ o ∈ (decode a s).operands,
    (∀ c ∈ (o.render fun _ => none).toList, isCapital c = true) ∧
    ((∃ i : Index, s 0 = i.opcode) → ¬ "HL".toList <:+: (o.render fun _ => none).toList) := by
  intro o ho
  obtain ⟨p, hp, rfl⟩ := List.mem_map.mp ho
  rw [Head.toList_render_operand]
  refine ⟨Head.isCapital_of_shown hp, fun ⟨i, hi⟩ => Head.not_infix_shown (i := i) hp ?_⟩
  rw [Head.read_of_override hi]
  exact (Head.index_opcode_ofOpcode _ _ _ _).1

end Plain

/-- **Operand texts and operand bytes agree.** No operand of a Z80 instruction has a lower-case
letter in it, so no placeholder of the opcode tables is left over, and none has `HL` in it behind
`DD` or `FD`. Without such an override the line of an instruction at a given address and its opcode
bytes determine its code: no byte is consumed that is not shown. -/
theorem texts_show_code (m m' : Image) :
    (∀ i ∈ (Architecture.z80.listing m).instructions, ∀ o ∈ i.operands,
      (∀ c ∈ (o.render fun _ => none).toList, isCapital c = true) ∧
      (i.code.head? = some 0xDD ∨ i.code.head? = some 0xFD →
        ¬ "HL".toList <:+: (o.render fun _ => none).toList)) ∧
    ∀ i ∈ (Architecture.z80.listing m).instructions,
      ∀ j ∈ (Architecture.z80.listing m').instructions,
      i.address = j.address → i.code.head? ≠ some 0xDD → i.code.head? ≠ some 0xFD →
      opcodeBytes i.code = opcodeBytes j.code → i.plain = j.plain → i.code = j.code := by
  have hcursor : ∀ m : Image, ∀ i ∈ (Architecture.z80.listing m).instructions,
      ∃ c : Cursor, i = decode c.address c.ahead ∧ i.address = c.address :=
    fun m => Decoder.exists_cursor_of_mem_listing nofun rfl
  refine ⟨fun i hi o ho => ?_, fun i hi j hj ha hdd hfd hopcode hline => ?_⟩
  · obtain ⟨c, rfl, -⟩ := hcursor m i hi
    obtain ⟨hcapital, hpair⟩ := render_operands_decode _ _ o ho
    refine ⟨hcapital, fun hover => hpair ?_⟩
    rw [head?_code, Option.some.injEq, Option.some.injEq] at hover
    exact (exists_index_opcode_iff _).mpr hover
  · obtain ⟨c, rfl, hc⟩ := hcursor m i hi
    obtain ⟨c', rfl, hc'⟩ := hcursor m' j hj
    rw [head?_code, Ne, Option.some.injEq] at hdd hfd
    have hplain : ∀ i : Index, c.ahead 0 ≠ i.opcode :=
      fun i hi => ((exists_index_opcode_iff _).mp ⟨i, hi⟩).elim hdd hfd
    -- The opcode bytes begin with the first byte, so that the other instruction is plain too.
    have hfirst := congrArg List.head? hopcode
    rw [head?_opcodeBytes, head?_opcodeBytes, head?_code, head?_code, Option.some.injEq] at hfirst
    have hplain' : ∀ i : Index, c'.ahead 0 ≠ i.opcode := fun i => hfirst ▸ hplain i
    rw [opcodeBytes_code hplain, opcodeBytes_code hplain'] at hopcode
    rw [← hc', ← ha, hc] at hline ⊢
    exact code_eq_of_plain_eq hplain hopcode hline

/-- A store behind an override, and a load that ends its image, which is read like the same load in
an image with the zero that it misses. -/
theorem texts_show_code_truncated :
    let x : Image := { base := 0xFFFC, bytes := #[0xDD, 0x36, 0x05, 0x10, 0x3A, 0x34] }
    let y : Image := { base := 0x0000, bytes := #[0x3A, 0x34, 0x00] }
    let store : Instruction :=
      { address := 0xFFFC, code := [0xDD, 0x36, 0x05, 0x10], mnemonic := "LD",
        operands := [.text "(IX+05H)", .text "10H"] }
    let load : Instruction :=
      { address := 0x0000, code := [0x3A, 0x34, 0x00], mnemonic := "LD",
        operands := [.text "A", .bracketed "0034H" 0x0034] }
    (Architecture.z80.listing x).instructions = [store, load] ∧
      (∀ o ∈ store.operands, (∀ c ∈ (o.render fun _ => none).toList, isCapital c = true) ∧
        ¬ "HL".toList <:+: (o.render fun _ => none).toList) ∧
      ∃ j ∈ (Architecture.z80.listing y).instructions,
        j.plain = "LD A,(0034H)" ∧ load.code = j.code := by
  intro x y store load
  have hx : (Architecture.z80.listing x).instructions = [store, load] := by
    rw [Architecture.listing, Decoder.listing_step (by decide), Decoder.listing_step (by decide),
      Decoder.listing_done (by decide)]
    decide
  have hy : (Architecture.z80.listing y).instructions = [load] := by
    rw [Architecture.listing, Decoder.listing_step (by decide), Decoder.listing_done (by decide)]
    decide
  have hload : load ∈ (Architecture.z80.listing y).instructions := hy ▸ List.mem_cons_self
  obtain ⟨htexts, hcode⟩ := texts_show_code x y
  rw [hx] at htexts hcode
  refine ⟨hx, fun o ho => ?_, load, hload, by decide, ?_⟩
  · obtain ⟨hcapital, hpair⟩ := htexts store List.mem_cons_self o ho
    exact ⟨hcapital, hpair (.inl rfl)⟩
  · exact hcode load (List.mem_cons_of_mem _ List.mem_cons_self) load hload rfl (by decide)
      (by decide) rfl rfl

end Z80

end Disassembly
