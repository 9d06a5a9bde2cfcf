import Disassembly.Proofs.Causality

/-! # Prefixes of the Z80

An override in front of an instruction puts an index register in the place of `HL`. What is read
then is the instruction that the bytes behind the override lead with, but for its operands `HL` and
`(HL)`; for `(HL)` there is also a displacement byte, except in the jump through the register.

* `Head.under`: the head of an instruction behind an override. `Head.read_cons` and
  `Head.read_cons_inner` say that this is what is read.
* `Head.operand_under`: the override changes no operand but `HL` and `(HL)`.
* `decode_plain`, `decode_trailing`, `decode_inner`: the instruction behind an override without a
  displacement byte, with one behind all other bytes, and with one right behind the opcode.

The byte behind an override may be an override again. Such a pair is listed as a line of its own
(`decode_override_override`), and only in this way does the name of a prefix become a mnemonic
(`decode_not_override_override`). -/

namespace Disassembly

/-! ### Streams with a byte in front -/

namespace ByteStream

/-- The stream with one more byte in front. -/
def cons (b : UInt8) (s : ByteStream) : ByteStream
  | 0 => b
  | k + 1 => s k

/-- The bytes of a list, with zeros without end behind them. -/
def ofList (w : List UInt8) : ByteStream := fun k => w.getD k 0

theorem take_cons (b : UInt8) (s : ByteStream) (n : Nat) :
    (cons b s).take (n + 1) = b :: s.take n := by
  unfold take
  rw [List.range_succ_eq_map, List.map_cons, List.map_map]
  rfl

theorem cons_add (b : UInt8) (s : ByteStream) (n k : Nat) : cons b s (n + 1 + k) = s (n + k) := by
  rw [Nat.add_right_comm]
  rfl

theorem cons_cons_cons_add (b o d : UInt8) (s : ByteStream) {n : Nat} (hn : 0 < n) (k : Nat) :
    cons b (cons o (cons d s)) (n + 2 + k) = cons o s (n + k) := by
  obtain ⟨j, hj⟩ : ∃ j, n + k = j + 1 := ⟨n + k - 1, by omega⟩
  rw [Nat.add_right_comm, hj]
  rfl

theorem take_cons_cons_cons (b o d : UInt8) (s : ByteStream) {n : Nat} (hn : 0 < n) :
    (cons b (cons o (cons d s))).take (n + 2) = b :: o :: d :: ((cons o s).take n).tail := by
  obtain ⟨j, rfl⟩ : ∃ j, n = j + 1 := ⟨n - 1, by omega⟩
  rw [take_cons, take_cons, take_cons, take_cons, List.tail_cons]

theorem ofList_cons (b : UInt8) (w : List UInt8) : ofList (b :: w) = cons b (ofList w) := by
  funext k
  cases k <;> rfl

theorem ofList_zero_eq_iff {w : List UInt8} {b : UInt8} (hb : b ≠ 0) :
    ofList w 0 = b ↔ w.head? = some b := by
  cases w with
  | nil => exact ⟨fun h => absurd h.symm hb, fun h => by cases h⟩
  | cons c w => simp [ofList]

theorem agree_ofList_append (s : ByteStream) (n : Nat) (v : List UInt8) :
    Agree s (ofList (s.take n ++ v)) n := by
  intro k hk
  have hlt : k < (s.take n).length := by rwa [length_take]
  unfold ofList
  rw [List.getD_eq_getElem?_getD, List.getElem?_append_left hlt, getElem?_take, if_pos hk]
  rfl

theorem ofList_append_length (l : List UInt8) (b : UInt8) (v : List UInt8) :
    ofList (l ++ b :: v) l.length = b := by
  simp [ofList]

end ByteStream

open ByteStream (cons ofList)

/-- The operand with another text in its place if it is a given text. -/
def Operand.replace (old new : String) (o : Operand) : Operand :=
  if o = .text old then .text new else o

namespace Z80

/-- The byte that puts an index register in the place of `HL`. -/
def Index.opcode : Index → UInt8
  | ix => 0xDD
  | iy => 0xFD

theorem mainForm_opcode (i : Index) : mainForm i.opcode = .override i := by
  cases i <;> decide

set_option maxRecDepth 2000 in
theorem eq_opcode_of_mainForm (i : Index) : ∀ b, mainForm b = .override i → b = i.opcode := by
  cases i <;> exact forall_byte (by decide)

/-! ### Heads behind an override -/

namespace Head

variable {s s' : ByteStream} {i : Index}

/-- The head with `n` more bytes in front and an index register in the place of `HL`. -/
def under (h : Head) (i : Index) (n : Nat) : Head :=
  { h with index := some i, length := h.length + n }

theorem read_of_plain (h : ∀ j : Index, s 0 ≠ j.opcode) : read s = ofOpcode s none (s 0) 1 := by
  unfold read
  split
  · next j hj => exact absurd (eq_opcode_of_mainForm j _ hj) (h j)
  · rfl

theorem read_of_override (h : s 0 = i.opcode) : read s = ofOpcode s (some i) (s 1) 2 := by
  unfold read
  rw [h, mainForm_opcode]

theorem ofOpcode_under {opcode : UInt8} {m n k : Nat}
    (hm : (if innerAt (some i) opcode then m + 1 else m) = n + k) (hs : s' (n + k) = s n) :
    ofOpcode s' (some i) opcode m = (ofOpcode s none opcode n).under i k := by
  have hnone : innerAt none opcode = false := rfl
  cases hf : mainForm opcode with
  | page p => simp [ofOpcode, hf, hm, hs, hnone, under, Nat.add_right_comm]
  | operation | override | undefined => simp [ofOpcode, hf, hm, hnone, under]

theorem read_cons (hplain : ∀ j : Index, s 0 ≠ j.opcode) (h : innerAt (some i) (s 0) = false) :
    read (cons i.opcode s) = (read s).under i 1 := by
  rw [read_of_override (i := i) rfl, read_of_plain hplain]
  refine ofOpcode_under ?_ rfl
  rw [show cons i.opcode s 1 = s 0 from rfl, h]
  rfl

theorem plain_of_inner {o : UInt8} (h : innerAt (some i) o = true) : ∀ j : Index, o ≠ j.opcode := by
  rintro j rfl
  cases i <;> cases j <;> exact absurd h (by decide)

theorem read_cons_inner {o d : UInt8} (h : innerAt (some i) o = true) :
    read (cons i.opcode (cons o (cons d s))) = (read (cons o s)).under i 2 := by
  rw [read_of_override (i := i) rfl, read_of_plain (s := cons o s) (plain_of_inner h)]
  refine ofOpcode_under ?_ rfl
  rw [show cons i.opcode (cons o (cons d s)) 1 = o from rfl, if_pos h]

theorem index_read_of_plain (h : ∀ j : Index, s 0 ≠ j.opcode) :
    (read s).index = none ∧ (read s).opcode = s 0 := by
  rw [read_of_plain h]
  exact index_opcode_ofOpcode _ _ _ _

/-! ### Operands behind an override -/

/-- What holds of the operands of each opcode, on each page, holds of the operands of a head. -/
theorem forall_patterns_read {P : List Pattern → Prop} (hmain : ∀ b, P ((mainForm b).patterns b))
    (hpage : ∀ (p : Page) b, P ((p.form b).patterns b)) (s : ByteStream) : P (read s).patterns := by
  obtain ⟨hf, -, hpatterns⟩ := read_eq_entry s
  rw [hpatterns]
  rcases hf with hf | ⟨p, hf⟩
  · rw [hf]
    exact hmain _
  · rw [hf]
    exact hpage p _

set_option maxRecDepth 2000 in
/-- `HL` and `(HL)` stand for themselves only, and never both in one instruction. -/
theorem patterns_read (s : ByteStream) : .fixed "HL" ∉ (read s).patterns ∧
    .fixed "(HL)" ∉ (read s).patterns ∧ (.atHl ∈ (read s).patterns → .hl ∉ (read s).patterns) := by
  refine forall_patterns_read (P := fun ps => .fixed "HL" ∉ ps ∧ .fixed "(HL)" ∉ ps ∧
    (.atHl ∈ ps → .hl ∉ ps)) (forall_byte (by decide)) (fun p => ?_) s
  cases p <;> exact forall_byte (by decide)

set_option maxRecDepth 2000 in
theorem patterns_read_inner {o : UInt8} (h : innerAt (some i) o = true) :
    .hl ∉ (read (cons o s)).patterns ∧ .offset ∉ (read (cons o s)).patterns := by
  have hload : mainForm 0x36 = .operation (.one "LD") [.destination, .always .byte] := by decide
  have hpage : mainForm 0xCB = .page .bits := by decide
  have hbits : ∀ b, .hl ∉ (bitsForm b).patterns b ∧ .offset ∉ (bitsForm b).patterns b :=
    forall_byte (by decide)
  rw [read_of_plain (s := cons o s) (plain_of_inner h), show cons o s 0 = o from rfl]
  have ho : o = 0x36 ∨ o = 0xCB := by simpa [innerAt] using h
  rcases ho with rfl | rfl
  · simp only [ofOpcode, hload]
    decide
  · simp only [ofOpcode, hpage]
    exact hbits _

variable {h : Head} {a a' : Address} {n : Nat} {p : Pattern}

/-- An override leaves the operands other than `HL` and `(HL)` alone. -/
theorem operand_under (hs : ∀ k, s' (h.length + n + k) = s (h.length + k))
    (ha : p = .offset → a' = a + UInt16.ofNat n) (hp : p ≠ .hl) (hp' : p ≠ .atHl) :
    (h.under i n).operand a s' p = h.operand a' s p := by
  have hbyte : s' (h.length + n) = s h.length := hs 0
  have hword : s'.word (h.length + n) = s.word h.length := by
    unfold ByteStream.word
    rw [hbyte, hs 1]
  cases p with
  | hl => exact absurd rfl hp
  | atHl => exact absurd rfl hp'
  | fixed => rfl
  | word | address | atAddress => simp only [operand, under, hword]
  | byte | device => simp only [operand, under, hbyte]
  | offset =>
    have htarget : (h.under i n).jumpTarget a s' = h.jumpTarget a' s := by
      simp only [jumpTarget, under, hbyte, ha rfl]
      rw [show h.length + n + 1 = n + (h.length + 1) by omega, UInt16.ofNat_add, UInt16.add_assoc]
    simp only [operand, htarget]

/-- A number never reads like a name of two characters, alone or in brackets. -/
theorem operand_ne_text {t : String} (ht : t.toList.length = 2 ∨ t.toList.length = 4)
    (hf : p ≠ .fixed t) (hp : p ≠ .hl) (hp' : p ≠ .atHl) : h.operand a s p ≠ .text t := by
  intro heq
  cases p with
  | hl => exact hp rfl
  | atHl => exact hp' rfl
  | fixed u => exact hf (congrArg _ (Operand.text.inj heq))
  | address | atAddress | offset => cases heq
  | word | byte | device =>
    have hlen := congrArg (fun u => u.toList.length) (Operand.text.inj heq)
    simp [wordText, byteText] at hlen
    omega

theorem operand_eq_memory_iff (hi : h.index = none) (hf : p ≠ .fixed "(HL)") :
    h.operand a s p = .text "(HL)" ↔ p = .atHl := by
  constructor
  · intro heq
    by_contra hne
    by_cases hp : p = .hl
    · subst hp
      simp [operand, pairText, hi] at heq
    · exact operand_ne_text (.inr rfl) hf hp hne heq
  · rintro rfl
    simp only [operand, memoryText, hi]

theorem operand_eq_pair_iff (hi : h.index = none) (hf : p ≠ .fixed "HL") :
    h.operand a s p = .text "HL" ↔ p = .hl := by
  constructor
  · intro heq
    by_contra hne
    by_cases hp : p = .atHl
    · subst hp
      simp [operand, memoryText, hi] at heq
    · exact operand_ne_text (.inl rfl) hf hne hp heq
  · rintro rfl
    simp only [operand, pairText, hi]

theorem operand_under_replace {m : String} (hi : h.index = none)
    (hs : ∀ k, s' (h.length + n + k) = s (h.length + k))
    (ha : p = .offset → a' = a + UInt16.ofNat n) (hf : p ≠ .fixed "(HL)") (hp : p ≠ .hl)
    (hm : p = .atHl → (h.under i n).memoryText s' = m) :
    (h.under i n).operand a s' p = (h.operand a' s p).replace "(HL)" m := by
  unfold Operand.replace
  by_cases hp' : p = .atHl
  · rw [if_pos ((operand_eq_memory_iff hi hf).mpr hp')]
    subst hp'
    exact congrArg Operand.text (hm rfl)
  · rw [if_neg (mt (operand_eq_memory_iff hi hf).mp hp')]
    exact operand_under hs ha hp hp'

theorem operand_under_replace_pair {m : String} (hi : h.index = none)
    (hs : ∀ k, s' (h.length + n + k) = s (h.length + k))
    (ha : p = .offset → a' = a + UInt16.ofNat n) (hf : p ≠ .fixed "(HL)") (hf' : p ≠ .fixed "HL")
    (hm : p = .atHl → (h.under i n).memoryText s' = m) (hne : m ≠ "HL") :
    (h.under i n).operand a s' p =
      ((h.operand a' s p).replace "(HL)" m).replace "HL" i.name := by
  by_cases hp : p = .hl
  · have hpair : h.operand a' s p = .text "HL" := (operand_eq_pair_iff hi hf').mpr hp
    subst hp
    rw [hpair]
    rfl
  · have hkeep : (h.operand a' s p).replace "(HL)" m ≠ .text "HL" := by
      unfold Operand.replace
      split
      · exact fun heq => hne (Operand.text.inj heq)
      · exact mt (operand_eq_pair_iff hi hf').mp hp
    rw [Operand.replace, if_neg hkeep]
    exact operand_under_replace hi hs ha hf hp hm

/-! ### Lengths behind an override -/

theorem codeLength_of_plain (hi : h.index = none) : h.codeLength = h.length + h.dataLength := by
  simp [codeLength, isTrailing, hi]

theorem codeLength_under (hi : h.index = none) (i : Index) (n : Nat) :
    (h.under i n).codeLength = h.codeLength + n + if (h.under i n).isTrailing then 1 else 0 := by
  rw [codeLength_of_plain hi, Nat.add_right_comm h.length]
  rfl

theorem displacementAt_under (hi : h.index = none) (i : Index) (n : Nat) :
    (h.under i n).displacementAt =
      if innerAt (some i) h.opcode then 2 else h.codeLength + n := by
  rw [codeLength_of_plain hi, Nat.add_right_comm]
  rfl

theorem memoryText_under (h9 : h.opcode ≠ 0xE9) (s : ByteStream) : (h.under i n).memoryText s =
    i.displaced (signed (s (h.under i n).displacementAt)) :=
  if_neg h9

theorem isTrailing_under_iff : (h.under i n).isTrailing = true ↔
    innerAt (some i) h.opcode = false ∧ h.opcode ≠ 0xE9 ∧ .atHl ∈ h.patterns := by
  simp [isTrailing, isInner, under, and_assoc]

end Head

/-! ### Instructions behind an override -/

section Override

variable {i : Index} {a a' : Address} {s s' : ByteStream}

theorem mem_operands_decode_iff (hplain : ∀ j : Index, s 0 ≠ j.opcode) :
    .text "(HL)" ∈ (decode a s).operands ↔ .atHl ∈ (Head.read s).patterns := by
  obtain ⟨hindex, -⟩ := Head.index_read_of_plain hplain
  obtain ⟨-, hmemory, -⟩ := Head.patterns_read s
  have hiff : ∀ p ∈ (Head.read s).patterns,
      (Head.read s).operand a s p = .text "(HL)" ↔ p = .atHl := by
    intro p hp
    refine Head.operand_eq_memory_iff hindex ?_
    rintro rfl
    exact hmemory hp
  show _ ∈ (Head.read s).patterns.map ((Head.read s).operand a s) ↔ _
  rw [List.mem_map]
  constructor
  · rintro ⟨p, hp, heq⟩
    exact (hiff p hp).mp heq ▸ hp
  · intro hp
    exact ⟨.atHl, hp, (hiff _ hp).mpr rfl⟩

/-- An instruction whose head is that of another one behind an override differs from it in its code
and in what becomes of its operands. -/
theorem decode_under {n : Nat} {code : List UInt8} {f : Operand → Operand}
    (hread : Head.read s' = (Head.read s).under i n)
    (hcode : s'.take ((Head.read s).under i n).codeLength = code)
    (hoperands : ∀ p ∈ (Head.read s).patterns,
      ((Head.read s).under i n).operand a s' p = f ((Head.read s).operand a' s p)) :
    decode a s' =
      { address := a, code, mnemonic := (decode a' s).mnemonic,
        operands := (decode a' s).operands.map f } := by
  unfold decode
  simp only [hread, hcode, List.map_map]
  congr 1
  exact List.map_congr_left hoperands

/-- The instruction behind an override that needs no displacement byte. -/
theorem decode_plain (hplain : ∀ j : Index, s 0 ≠ j.opcode)
    (hin : Head.innerAt (some i) (s 0) = false)
    (h : .text "(HL)" ∈ (decode (a + 1) s).operands → s 0 = 0xE9) :
    decode a (cons i.opcode s) =
      { address := a
        code := i.opcode :: (decode (a + 1) s).code
        mnemonic := (decode (a + 1) s).mnemonic
        operands := (decode (a + 1) s).operands.map fun o =>
          (o.replace "(HL)" ("(" ++ i.name ++ ")")).replace "HL" i.name } := by
  obtain ⟨hindex, hopcode⟩ := Head.index_read_of_plain hplain
  obtain ⟨hpair, hmemory, -⟩ := Head.patterns_read s
  rw [mem_operands_decode_iff hplain] at h
  have htrail : ((Head.read s).under i 1).isTrailing ≠ true := by
    rw [Ne, Head.isTrailing_under_iff, hopcode]
    rintro ⟨-, hne, hp⟩
    exact hne (h hp)
  refine decode_under (Head.read_cons hplain hin) ?_ fun p hp => ?_
  · rw [Head.codeLength_under hindex, if_neg htrail, Nat.add_zero, ByteStream.take_cons]
    rfl
  · refine Head.operand_under_replace_pair hindex (ByteStream.cons_add _ _ _) (fun _ => rfl)
      ?_ ?_ ?_ ?_
    · rintro rfl; exact hmemory hp
    · rintro rfl; exact hpair hp
    · rintro rfl; exact if_pos (hopcode.trans (h hp))
    · cases i <;> decide

/-- The instruction behind an override with the displacement byte at its end. -/
theorem decode_trailing (hplain : ∀ j : Index, s 0 ≠ j.opcode)
    (hin : Head.innerAt (some i) (s 0) = false) (h9 : s 0 ≠ 0xE9)
    (h : .text "(HL)" ∈ (decode (a + 1) s).operands) :
    decode a (cons i.opcode s) =
      { address := a
        code := i.opcode :: (decode (a + 1) s).code ++ [s (decode (a + 1) s).code.length]
        mnemonic := (decode (a + 1) s).mnemonic
        operands := (decode (a + 1) s).operands.map
          (Operand.replace "(HL)" (i.displaced (signed (s (decode (a + 1) s).code.length)))) } := by
  obtain ⟨hindex, hopcode⟩ := Head.index_read_of_plain hplain
  obtain ⟨-, hmemory, hboth⟩ := Head.patterns_read s
  rw [mem_operands_decode_iff hplain] at h
  have htrail : ((Head.read s).under i 1).isTrailing = true := by
    rw [Head.isTrailing_under_iff, hopcode]
    exact ⟨hin, h9, h⟩
  rw [length_code_decode]
  refine decode_under (Head.read_cons hplain hin) ?_ fun p hp => ?_
  · rw [Head.codeLength_under hindex, if_pos htrail, ByteStream.take_cons, ByteStream.take_succ]
    rfl
  · refine Head.operand_under_replace hindex (ByteStream.cons_add _ _ _) (fun _ => rfl) ?_ ?_ ?_
    · rintro rfl; exact hmemory hp
    · rintro rfl; exact hboth h hp
    · intro _
      rw [Head.memoryText_under (hopcode ▸ h9), Head.displacementAt_under hindex, hopcode, hin,
        if_neg (by decide)]
      rfl

/-- The instruction behind an override with the displacement byte right behind its opcode. -/
theorem decode_inner {o d : UInt8} (hin : Head.innerAt (some i) o = true) :
    decode a (cons i.opcode (cons o (cons d s))) =
      { address := a
        code := i.opcode :: o :: d :: (decode a' (cons o s)).code.tail
        mnemonic := (decode a' (cons o s)).mnemonic
        operands := (decode a' (cons o s)).operands.map
          (Operand.replace "(HL)" (i.displaced (signed d))) } := by
  have hplain := Head.plain_of_inner hin
  obtain ⟨hindex, hopcode⟩ := Head.index_read_of_plain (s := cons o s) hplain
  obtain ⟨-, hmemory, -⟩ := Head.patterns_read (cons o s)
  obtain ⟨hpair, hoffset⟩ := Head.patterns_read_inner (s := s) hin
  have hin' : Head.innerAt (some i) (Head.read (cons o s)).opcode = true := by
    rw [hopcode]
    exact hin
  have h9 : (Head.read (cons o s)).opcode ≠ 0xE9 := by
    intro h
    rw [h] at hin'
    exact absurd hin' (by cases i <;> decide)
  have htrail : ((Head.read (cons o s)).under i 2).isTrailing ≠ true := by
    rw [Ne, Head.isTrailing_under_iff, hin']
    exact fun h => absurd h.1 (by decide)
  refine decode_under (Head.read_cons_inner hin) ?_ fun p hp => ?_
  · have hpos := length_code_decode_pos a' (cons o s)
    rw [length_code_decode] at hpos
    rw [Head.codeLength_under hindex, if_neg htrail, Nat.add_zero,
      ByteStream.take_cons_cons_cons _ _ _ _ hpos]
    rfl
  · have hpos := Head.length_read_pos (cons o s)
    refine Head.operand_under_replace hindex (ByteStream.cons_cons_cons_add _ _ _ _ hpos) ?_ ?_ ?_
      fun _ => ?_
    · rintro rfl; exact absurd hp hoffset
    · rintro rfl; exact hmemory hp
    · rintro rfl; exact hpair hp
    · rw [Head.memoryText_under h9, Head.displacementAt_under hindex, if_pos hin']
      rfl

/-- The code of an instruction in front of other bytes is read as this instruction. -/
theorem decode_code_append (a : Address) (s : ByteStream) (v : List UInt8) :
    ofList ((decode a s).code ++ v) 0 = s 0 ∧
      decode a (ofList ((decode a s).code ++ v)) = decode a s := by
  have hagree : s.Agree (ofList ((decode a s).code ++ v)) (decode a s).code.length := by
    rw [length_code_decode]
    exact s.agree_ofList_append _ v
  exact ⟨(hagree 0 (length_code_decode_pos a s)).symm, decode_congr hagree⟩

theorem decode_trailing_append (hplain : ∀ j : Index, s 0 ≠ j.opcode)
    (hin : Head.innerAt (some i) (s 0) = false) (h9 : s 0 ≠ 0xE9)
    (h : .text "(HL)" ∈ (decode (a + 1) s).operands) (d : UInt8) (rest : List UInt8) :
    decode a (cons i.opcode (ofList ((decode (a + 1) s).code ++ d :: rest))) =
      { address := a
        code := i.opcode :: (decode (a + 1) s).code ++ [d]
        mnemonic := (decode (a + 1) s).mnemonic
        operands := (decode (a + 1) s).operands.map
          (Operand.replace "(HL)" (i.displaced (signed d))) } := by
  -- The code in front of `d` is read as the same instruction, and `d` is the byte behind it.
  obtain ⟨hzero, hagain⟩ := decode_code_append (a + 1) s (d :: rest)
  have hlast := ByteStream.ofList_append_length (decode (a + 1) s).code d rest
  rw [← hzero] at hplain hin h9
  rw [← hagain] at h
  have htrailing := decode_trailing (i := i) hplain hin h9 h
  rwa [hagain, hlast] at htrailing

end Override

/-- The instruction that leads bytes loaded at an address. -/
def lineOf (a : Address) (w : List UInt8) : Instruction :=
  Decoder.z80.instruction { image := { base := a, bytes := w.toArray } }

theorem lineOf_eq (a : Address) (w : List UInt8) : lineOf a w = decode a (ofList w) := by
  have hahead : Cursor.ahead { image := { base := a, bytes := w.toArray } } = ofList w := by
    funext k
    simp [Cursor.ahead, ByteStream.drop, Image.stream, ofList]
  have haddress : Cursor.address { image := { base := a, bytes := w.toArray } } = a :=
    Image.addressAt_zero _
  unfold lineOf Decoder.instruction
  rw [hahead, haddress]

/-- **An override rewrites the plain instruction.** Let `u` be the instruction that leads the bytes
`w`, which do not start with another override. Behind an override it keeps its mnemonic and its
addresses, and:
* if it has no operand `(HL)`, or is the jump through `HL`, its code has the override in front, and
  the register stands in the place of `HL`, also in brackets;
* if it has an operand `(HL)`, its code has the override in front and a displacement behind it, and
  the operand shows both;
* if its opcode is `36` or `CB`, the displacement is right behind the opcode. -/
theorem override_rewrites (i : Index) (a : Address) (w : List UInt8)
    (hw : ∀ j : Index, w.head? ≠ some j.opcode) :
    let u := lineOf (a + 1) w
    ((w.head? ≠ some 0xCB ∧ w.head? ≠ some 0x36 ∧ .text "(HL)" ∉ u.operands ∨
        w.head? = some 0xE9) →
      lineOf a (i.opcode :: w) =
        { address := a
          code := i.opcode :: u.code
          mnemonic := u.mnemonic
          operands := u.operands.map fun o =>
            (o.replace "(HL)" ("(" ++ i.name ++ ")")).replace "HL" i.name }) ∧
    (w.head? ≠ some 0xCB → w.head? ≠ some 0x36 → w.head? ≠ some 0xE9 →
      .text "(HL)" ∈ u.operands → ∀ d rest,
      lineOf a (i.opcode :: u.code ++ d :: rest) =
        { address := a
          code := i.opcode :: u.code ++ [d]
          mnemonic := u.mnemonic
          operands := u.operands.map (Operand.replace "(HL)" (i.displaced (signed d))) }) ∧
    (∀ o t, w = o :: t → o = 0x36 ∨ o = 0xCB → ∀ d,
      lineOf a (i.opcode :: o :: d :: t) =
        { address := a
          code := i.opcode :: o :: d :: u.code.tail
          mnemonic := u.mnemonic
          operands := u.operands.map (Operand.replace "(HL)" (i.displaced (signed d))) }) := by
  intro u
  have hu : u = decode (a + 1) (ofList w) := lineOf_eq _ _
  have hfirst : ∀ b : UInt8, b ≠ 0 → w.head? ≠ some b → ofList w 0 ≠ b :=
    fun b hb => mt (ByteStream.ofList_zero_eq_iff hb).mp
  have hplain : ∀ j : Index, ofList w 0 ≠ j.opcode :=
    fun j => hfirst _ (by cases j <;> decide) (hw j)
  have hinner : w.head? ≠ some 0xCB → w.head? ≠ some 0x36 →
      Head.innerAt (some i) (ofList w 0) = false := by
    intro h1 h2
    simp [Head.innerAt, hfirst _ (by decide) h1, hfirst _ (by decide) h2]
  refine ⟨?_, ?_, ?_⟩
  · intro h
    rw [hu] at h ⊢
    rw [lineOf_eq, ByteStream.ofList_cons]
    rcases h with ⟨h1, h2, h3⟩ | h
    · exact decode_plain hplain (hinner h1 h2) fun hp => absurd hp h3
    · have h9 : ofList w 0 = 0xE9 := (ByteStream.ofList_zero_eq_iff (by decide)).mpr h
      exact decode_plain hplain (hinner (by rw [h]; decide) (by rw [h]; decide)) fun _ => h9
  · intro h1 h2 h3 hp d rest
    rw [hu] at hp ⊢
    rw [List.cons_append, lineOf_eq, ByteStream.ofList_cons]
    exact decode_trailing_append hplain (hinner h1 h2) (hfirst _ (by decide) h3) hp d rest
  · rintro o t rfl ho d
    have hin : Head.innerAt (some i) o = true := by
      rcases ho with rfl | rfl <;> rfl
    rw [lineOf_eq, hu]
    simp only [ByteStream.ofList_cons]
    exact decode_inner hin

/-- A relative jump across the end of the address space, an indexed load and the test of an indexed
bit. -/
theorem override_rewrites_places :
    lineOf 0xFFFE [0xFD, 0x20, 0x05] =
        { address := 0xFFFE, code := [0xFD, 0x20, 0x05], mnemonic := "JR",
          operands := [.text "NZ", .bare "0006H" 0x0006] } ∧
      lineOf 0x0100 [0xDD, 0x7E, 0xFE, 0xC9] =
        { address := 0x0100, code := [0xDD, 0x7E, 0xFE], mnemonic := "LD",
          operands := [.text "A", .text "(IX-02H)"] } ∧
      lineOf 0x0100 [0xFD, 0xCB, 0x01, 0x46] =
        { address := 0x0100, code := [0xFD, 0xCB, 0x01, 0x46], mnemonic := "BIT",
          operands := [.text "0", .text "(IY+01H)"] } := by
  obtain ⟨hjump, -, -⟩ :=
    override_rewrites .iy 0xFFFE [0x20, 0x05] (by intro j; cases j <;> decide)
  obtain ⟨-, hload, -⟩ := override_rewrites .ix 0x0100 [0x7E] (by intro j; cases j <;> decide)
  obtain ⟨-, -, hbit⟩ :=
    override_rewrites .iy 0x0100 [0xCB, 0x46] (by intro j; cases j <;> decide)
  refine ⟨(hjump (.inl ⟨by decide, by decide, by decide⟩)).trans (by decide),
    (hload (by decide) (by decide) (by decide) (by decide) 0xFE [0xC9]).trans
      (by decide),
    (hbit 0xCB [0x46] rfl (.inr rfl) 0x01).trans (by decide)⟩

/-! ### Prefixes that are left over -/

/-- The mnemonics of the opcodes that only lead to another one. -/
def prefixMnemonics : List String :=
  [Page.bits.name, Page.extended.name, Index.ix.name, Index.iy.name]

/-- The mnemonic of an opcode that is an instruction. -/
def Form.operationName? (opcode : UInt8) : Form → Option String
  | operation n _ => some (n.mnemonic opcode)
  | page _ | override _ | undefined => none

/-- Whether no further opcode follows one of the form. -/
def Form.isLast : Form → Bool
  | operation _ _ | undefined => true
  | page _ | override _ => false

/-- Some opcode of the main page or of another page is an instruction of this name. -/
def IsOperationName (name : String) : Prop :=
  ∃ b, (mainForm b).operationName? b = some name ∨
    ∃ p : Page, (p.form b).operationName? b = some name

set_option maxRecDepth 2000 in
theorem IsOperationName.notMem {name : String} (h : IsOperationName name) :
    name ∉ prefixMnemonics := by
  have hmain : ∀ b, ∀ t ∈ prefixMnemonics, (mainForm b).operationName? b ≠ some t :=
    forall_byte (by decide)
  have hpage : ∀ p : Page, ∀ b, ∀ t ∈ prefixMnemonics, (p.form b).operationName? b ≠ some t := by
    intro p
    cases p <;> exact forall_byte (by decide)
  intro hname
  obtain ⟨b, h | ⟨p, h⟩⟩ := h
  · exact hmain b name hname h
  · exact hpage p b name hname h

theorem Form.mnemonic_of_isLast {f : Form} (h : f.isLast = true) (b : UInt8) :
    f.mnemonic b = undefinedMnemonic ∨ f.operationName? b = some (f.mnemonic b) := by
  cases f with
  | operation => exact .inr rfl
  | undefined => exact .inl rfl
  | page | override => cases h

theorem Page.isLast_form (p : Page) (b : UInt8) : (p.form b).isLast = true := by
  cases p with
  | bits =>
    simp only [form, bitsForm]
    split <;> rfl
  | extended =>
    simp only [form, extendedForm, extendedQuarter]
    split
    · split <;> rfl
    · split <;> rfl
    · rfl

/-- A head that does not end with an override is an instruction or not defined. -/
theorem Head.mnemonic_ofOpcode {opcode : UInt8} (h : ∀ j : Index, opcode ≠ j.opcode)
    (s : ByteStream) (index : Option Index) (n : Nat) :
    (ofOpcode s index opcode n).mnemonic = undefinedMnemonic ∨
      IsOperationName (ofOpcode s index opcode n).mnemonic := by
  cases hf : mainForm opcode with
  | page p =>
    simp only [ofOpcode, hf]
    exact (Form.mnemonic_of_isLast (p.isLast_form _) _).imp_right fun hname =>
      ⟨_, .inr ⟨p, hname⟩⟩
  | operation name parts =>
    simp only [ofOpcode, hf]
    exact .inr ⟨opcode, .inl (by rw [hf]; rfl)⟩
  | override j => exact absurd (eq_opcode_of_mainForm j _ hf) (h j)
  | undefined =>
    simp only [ofOpcode, hf]
    exact .inl rfl

theorem decode_override_override {i j : Index} {a : Address} {s : ByteStream}
    (hi : s 0 = i.opcode) (hj : s 1 = j.opcode) :
    decode a s = { address := a, code := [i.opcode, j.opcode], mnemonic := j.name } := by
  have hread : Head.read s = ⟨some i, j.opcode, j.name, [], 2⟩ := by
    rw [Head.read_of_override hi, hj]
    cases i <;> cases j <;> rfl
  have hlength : (Head.read s).codeLength = 2 := by
    rw [hread]
    cases i <;> cases j <;> rfl
  have hcode : s.take 2 = [i.opcode, j.opcode] := by
    rw [← hi, ← hj]
    rfl
  unfold decode
  simp only [hlength, hcode]
  rw [hread]
  rfl

theorem decode_not_override_override {a : Address} {s : ByteStream}
    (h : ∀ i j : Index, ¬ (s 0 = i.opcode ∧ s 1 = j.opcode)) :
    (decode a s).mnemonic = undefinedMnemonic ∨ IsOperationName (decode a s).mnemonic := by
  show (Head.read s).mnemonic = _ ∨ IsOperationName (Head.read s).mnemonic
  by_cases hover : ∃ i : Index, s 0 = i.opcode
  · obtain ⟨i, hi⟩ := hover
    rw [Head.read_of_override hi]
    exact Head.mnemonic_ofOpcode (fun j hj => h i j ⟨hi, hj⟩) _ _ _
  · have hplain : ∀ j : Index, s 0 ≠ j.opcode := fun j hj => hover ⟨j, hj⟩
    rw [Head.read_of_plain hplain]
    exact Head.mnemonic_ofOpcode hplain _ _ _

theorem code_decode_eq_pair {a : Address} {s : ByteStream} {b b' : UInt8}
    (h : (decode a s).code = [b, b']) : s 0 = b ∧ s 1 = b' := by
  have hlength : (Head.read s).codeLength = 2 := by
    rw [← length_code_decode a, h]
    rfl
  have hcode : s.take (Head.read s).codeLength = [b, b'] := h
  rw [hlength] at hcode
  simpa [ByteStream.take, List.range_succ] using hcode

/-- **The only prefixes that are listed as lines are overrides in front of overrides.** A line whose
code is two overrides has the name of the second register as its mnemonic, and no operands. Every
other line is an instruction or undefined, and does not have the name of a prefix. -/
theorem override_pairs_only (m : Image) :
    ∀ l ∈ (Architecture.z80.listing m).instructions,
      (∀ i j : Index, l.code = [i.opcode, j.opcode] → l.mnemonic = j.name ∧ l.operands = []) ∧
      ((∀ i j : Index, l.code ≠ [i.opcode, j.opcode]) → l.mnemonic ∉ prefixMnemonics ∧
        (l.mnemonic = undefinedMnemonic ∨ IsOperationName l.mnemonic)) := by
  refine Decoder.forall_mem_listing (Q := fun d _ => d = .z80) ?_ rfl
  rintro d c - rfl
  refine ⟨⟨fun i j hcode => ?_, fun hcode => ?_⟩, rfl⟩
  · obtain ⟨hi, hj⟩ := code_decode_eq_pair hcode
    show (decode _ _).mnemonic = _ ∧ (decode _ _).operands = _
    rw [decode_override_override hi hj]
    exact ⟨rfl, rfl⟩
  · have hkind := decode_not_override_override (a := c.address) (s := c.ahead) (by
      rintro i j ⟨hi, hj⟩
      refine hcode i j ?_
      show (decode _ _).code = _
      rw [decode_override_override hi hj])
    refine ⟨?_, hkind⟩
    rcases hkind with hname | hname
    · show (decode _ _).mnemonic ∉ _
      rw [hname]
      decide
    · exact hname.notMem

/-- Two overrides, and then one in front of an instruction. -/
theorem override_pairs_only_mixed :
    let m : Image := { base := 0x0100, bytes := #[0xDD, 0xFD, 0xDD, 0x00] }
    ∃ pair other, (Architecture.z80.listing m).instructions = [pair, other] ∧
      pair.code = [Index.ix.opcode, Index.iy.opcode] ∧ pair.mnemonic = "IY" ∧
      other.code = [Index.ix.opcode, 0x00] ∧ other.mnemonic ∉ prefixMnemonics := by
  intro m
  have hlisting : (Architecture.z80.listing m).instructions =
      [{ address := 0x0100, code := [0xDD, 0xFD], mnemonic := "IY" },
        { address := 0x0102, code := [0xDD, 0x00], mnemonic := "NOP" }] := by
    rw [Architecture.listing, Decoder.listing_step (by decide), Decoder.listing_step (by decide),
      Decoder.listing_done (by decide)]
    decide
  have hlines := override_pairs_only m
  rw [hlisting] at hlines
  obtain ⟨hpair, -⟩ := hlines _ List.mem_cons_self
  obtain ⟨-, hother⟩ := hlines _ (List.mem_cons_of_mem _ List.mem_cons_self)
  refine ⟨_, _, hlisting, rfl, (hpair .ix .iy rfl).1, rfl, (hother ?_).1⟩
  intro i j
  cases i <;> cases j <;> decide

/-- An image whose only line has the name of a prefix. -/
theorem override_pair_listed :
    let m : Image := { base := 0x0100, bytes := #[0xDD, 0xDD] }
    (Architecture.z80.listing m).instructions =
        [{ address := 0x0100, code := [0xDD, 0xDD], mnemonic := "IX" }] ∧
      "IX" ∈ prefixMnemonics ∧
      ¬ ∀ l ∈ (Architecture.z80.listing m).instructions, l.mnemonic ∉ prefixMnemonics := by
  intro m
  have hlisting : (Architecture.z80.listing m).instructions =
      [{ address := 0x0100, code := [0xDD, 0xDD], mnemonic := "IX" }] := by
    rw [Architecture.listing, Decoder.listing_step (by decide), Decoder.listing_done (by decide)]
    decide
  refine ⟨hlisting, by decide, fun h => ?_⟩
  rw [hlisting] at h
  exact h _ List.mem_cons_self (by decide)

end Z80

end Disassembly
