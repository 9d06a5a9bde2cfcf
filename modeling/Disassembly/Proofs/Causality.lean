import Disassembly.Proofs.Tiling

/-! # An instruction is a function of its own bytes

Outside p-code a decoder looks at no byte behind the instruction that it returns. Two streams that
agree on the bytes of the instruction that one of them leads with have the same instruction in front
(`decode_congr` for each instruction set, `Decoder.instruction_congr` for all), so two images whose
streams agree up to some offset have listings that agree up to there (`take_listing_eq`), and the
code of an instruction by itself is listed as this instruction (`listing_own_code`).

For the Z80 this rests on where the displacement byte stands: `Head.displacementAt_lt` shows that it
is one of the bytes that the instruction has. -/

namespace Disassembly

/-- The two streams have the same first bytes. -/
def ByteStream.Agree (s t : ByteStream) (n : Nat) : Prop := ∀ k < n, s k = t k

namespace ByteStream.Agree

variable {s t : ByteStream} {n : Nat}

theorem mono (h : Agree s t n) {l : Nat} (hl : l ≤ n) : Agree s t l :=
  fun k hk => h k (Nat.lt_of_lt_of_le hk hl)

theorem drop (h : Agree s t n) (l : Nat) : Agree (s.drop l) (t.drop l) (n - l) :=
  fun k hk => h (l + k) (by omega)

theorem word (h : Agree s t n) {k : Nat} (hk : k + 1 < n) : s.word k = t.word k := by
  unfold ByteStream.word
  rw [h k (by omega), h (k + 1) hk]

end ByteStream.Agree

open ByteStream (Agree)

/-! ### The 6502 family and SWEET16 -/

namespace Mos6502

theorem Mode.operands_congr {mode : Mode} {a : Address} {s t : ByteStream}
    (h : Agree s t mode.length) : mode.operands a s = mode.operands a t := by
  -- A mode reads the byte behind the opcode if it has two bytes, and the word if it has three.
  have hbyte : 2 ≤ mode.length → s 1 = t 1 := fun hl => h 1 (by omega)
  have hword : 3 ≤ mode.length → s.word 1 = t.word 1 := fun hl => h.word (by omega)
  cases mode with
  | implicit | accumulator | undefined1 => rfl
  | immediate | zeroPage | zeroPageX | zeroPageY | relative | zeroPageIndirect | indirectX
  | indirectY | undefined2 => simp only [operands, hbyte (by decide)]
  | absolute | absoluteX | absoluteY | indirect | absoluteIndexedIndirect | undefined3 =>
    simp only [operands, hword (by decide)]

theorem Variant.decode_congr {v : Variant} {a : Address} {s t : ByteStream}
    (h : Agree s t (v.decode a s).code.length) : v.decode a t = v.decode a s := by
  rw [length_code_decode] at h
  have h0 : t 0 = s 0 := (h 0 (Mode.length_pos _)).symm
  unfold decode
  simp only [h0]
  rw [ByteStream.take_congr h, Mode.operands_congr h]

end Mos6502

namespace Sweet16

theorem Shape.operands_congr {shape : Shape} {a : Address} {s t : ByteStream}
    (h : Agree s t shape.length) : shape.operands a s = shape.operands a t := by
  have h0 : s 0 = t 0 := h 0 shape.length_pos
  cases shape with
  | constant =>
    have hword : s.word 1 = t.word 1 := h.word (by decide)
    simp only [operands, h0, hword]
  | branch =>
    have hbyte : s 1 = t 1 := h 1 (by decide)
    simp only [operands, hbyte]
  | direct | indirect | implied => simp only [operands, h0]

theorem decode_congr {a : Address} {s t : ByteStream} (h : Agree s t (decode a s).code.length) :
    decode a t = decode a s := by
  rw [length_code_decode] at h
  have h0 : t 0 = s 0 := (h 0 (Shape.length_pos _)).symm
  unfold decode
  simp only [h0]
  rw [ByteStream.take_congr h, Shape.operands_congr h]

end Sweet16

/-! ### The Z80 -/

namespace Z80.Head

variable {s t : ByteStream}

theorem le_length_ofOpcode (s : ByteStream) (index : Option Index) (opcode : UInt8) (n : Nat) :
    (if innerAt index opcode then n + 1 else n) ≤ (ofOpcode s index opcode n).length := by
  cases hf : mainForm opcode with
  | page p => simp only [ofOpcode, hf]; omega
  | operation | override | undefined => simp only [ofOpcode, hf]; omega

theorem ofOpcode_congr {index : Option Index} {opcode : UInt8} {n : Nat}
    (h : Agree s t (ofOpcode s index opcode n).length) :
    ofOpcode t index opcode n = ofOpcode s index opcode n := by
  cases hf : mainForm opcode with
  | page p =>
    -- The opcode of the page is the last byte of the head.
    have hlast : s (if innerAt index opcode then n + 1 else n) =
        t (if innerAt index opcode then n + 1 else n) := by
      refine h _ ?_
      simp only [ofOpcode, hf]
      omega
    simp only [ofOpcode, hf, hlast]
  | operation | override | undefined => simp only [ofOpcode, hf]

theorem read_congr (h : Agree s t (read s).length) : read t = read s := by
  have h0 : t 0 = s 0 := (h 0 (length_read_pos s)).symm
  unfold read at h ⊢
  rw [h0]
  split at h
  · next i hi =>
    have hle := le_length_ofOpcode s (some i) (s 1) 2
    have h1 : t 1 = s 1 := (h 1 (by split at hle <;> omega)).symm
    rw [h1]
    exact ofOpcode_congr h
  · exact ofOpcode_congr h

theorem index_opcode_ofOpcode (s : ByteStream) (index : Option Index) (opcode : UInt8) (n : Nat) :
    (ofOpcode s index opcode n).index = index ∧ (ofOpcode s index opcode n).opcode = opcode := by
  cases hf : mainForm opcode <;> simp only [ofOpcode, hf, and_self]

/-- A displacement byte that follows the opcode at once is the third byte of the head. -/
theorem three_le_length_of_isInner (h : (read s).isInner = true) : 3 ≤ (read s).length := by
  have hinner : ∀ index opcode n, (ofOpcode s index opcode n).isInner = true →
      n + 1 ≤ (ofOpcode s index opcode n).length := by
    intro index opcode n h
    obtain ⟨hi, ho⟩ := index_opcode_ofOpcode s index opcode n
    rw [isInner, hi, ho] at h
    have hle := le_length_ofOpcode s index opcode n
    rwa [if_pos h] at hle
  unfold read at h ⊢
  split at h
  · exact hinner _ _ _ h
  · -- Without an override there is no displacement.
    rw [isInner, (index_opcode_ofOpcode _ _ _ _).1] at h
    cases h

theorem size_le_dataLength {h : Head} {p : Pattern} (hp : p ∈ h.patterns) :
    p.size ≤ h.dataLength := by
  unfold dataLength
  revert hp
  induction h.patterns with
  | nil => intro hp; cases hp
  | cons q ps ih =>
    intro hp
    rw [List.foldr_cons]
    rcases List.mem_cons.mp hp with rfl | hp
    · omega
    · have := ih hp
      omega

/-- The displacement byte of an indexed operand belongs to the instruction. -/
theorem displacementAt_lt (hp : .atHl ∈ (read s).patterns) {i : Index}
    (hi : (read s).index = some i) (ho : (read s).opcode ≠ 0xE9) :
    (read s).displacementAt < (read s).codeLength := by
  unfold displacementAt codeLength
  cases hin : (read s).isInner with
  | true =>
    have := three_le_length_of_isInner hin
    rw [if_pos rfl]
    omega
  | false =>
    have htrail : (read s).isTrailing = true := by
      simp [isTrailing, hi, hin, ho, hp]
    rw [htrail, if_neg (by decide), if_pos rfl]
    omega

theorem operand_congr {a : Address} {p : Pattern} (hp : p ∈ (read s).patterns)
    (h : Agree s t (read s).codeLength) : (read s).operand a s p = (read s).operand a t p := by
  have hsize := size_le_dataLength hp
  have hlen : (read s).length + (read s).dataLength ≤ (read s).codeLength := Nat.le_add_right _ _
  have hbyte : 1 ≤ p.size → s (read s).length = t (read s).length := fun hl => h _ (by omega)
  have hword : 2 ≤ p.size → s.word (read s).length = t.word (read s).length :=
    fun hl => h.word (by omega)
  cases p with
  | fixed | hl => rfl
  | word | address | atAddress => simp only [operand, hword (by decide)]
  | byte | device => simp only [operand, hbyte (by decide)]
  | offset => simp only [operand, jumpTarget, hbyte (by decide)]
  | atHl =>
    simp only [operand, memoryText]
    split
    · rfl
    · next i hi =>
      split
      · rfl
      · next ho => rw [h _ (displacementAt_lt hp hi ho)]

end Z80.Head

theorem Z80.decode_congr {a : Address} {s t : ByteStream} (h : Agree s t (decode a s).code.length) :
    decode a t = decode a s := by
  rw [length_code_decode] at h
  have hhead : Head.read t = Head.read s := by
    refine Head.read_congr (h.mono ?_)
    unfold Head.codeLength
    omega
  unfold decode
  simp only [hhead]
  rw [ByteStream.take_congr h, List.map_congr_left fun p hp => Head.operand_congr hp h]

/-! ### Decoders -/

theorem Dialect.decode_congr {dialect : Dialect} {a : Address} {s t : ByteStream}
    (h : Agree s t (dialect.decode a s).code.length) : dialect.decode a t = dialect.decode a s := by
  cases dialect with
  | mos6502 => exact Mos6502.Variant.decode_congr h
  | sweet16 => exact Sweet16.decode_congr h

namespace Decoder

variable {d : Decoder} {c c' : Cursor}

/-- **A step is a function of the address and of the bytes of the instruction**, outside p-code. -/
theorem instruction_congr (hd : d ≠ .pcode) (ha : c'.address = c.address)
    (h : Agree c.ahead c'.ahead (d.instruction c).code.length) :
    d.instruction c' = d.instruction c ∧ d.next c' = d.next c := by
  cases d with
  | pcode => exact absurd rfl hd
  | mos6502 v =>
    simp only [instruction, ha] at h ⊢
    exact ⟨Mos6502.Variant.decode_congr h, rfl⟩
  | sweet16 =>
    simp only [instruction, ha] at h ⊢
    exact ⟨Sweet16.decode_congr h, rfl⟩
  | z80 =>
    simp only [instruction, ha] at h ⊢
    exact ⟨Z80.decode_congr h, rfl⟩
  | switching w =>
    cases hw : w.pending with
    | some a => simp only [instruction, next, Switching.decode, Switching.next, hw, and_self]
    | none =>
      simp only [instruction, next, Switching.decode, Switching.next, hw, ha] at h ⊢
      rw [Dialect.decode_congr h]
      exact ⟨rfl, rfl⟩

theorem next_ne_pcode (hd : d ≠ .pcode) (c : Cursor) : d.next c ≠ .pcode := by
  intro h
  cases d with
  | pcode => exact hd rfl
  | mos6502 | sweet16 | z80 | switching => cases h

theorem agree_ahead {m n : Nat} (ho : c'.offset = c.offset)
    (h : Agree c.image.stream c'.image.stream m) (hn : c.offset + n ≤ m) :
    Agree c.ahead c'.ahead n := by
  unfold Cursor.ahead
  rw [ho]
  exact (h.drop c.offset).mono (by omega)

/-- **Two runs**: if the streams of two images agree up to an offset, the listings from a cursor on
agree in the instructions that end up to there, as long as those with code start inside the second
image. -/
theorem take_listing_eq {m : Nat} : ∀ (k : Nat) {d : Decoder} {c c' : Cursor}, d ≠ .pcode →
    c'.image.base = c.image.base → c'.offset = c.offset →
    Agree c.image.stream c'.image.stream m → k ≤ (d.listing c).instructions.length →
    c.offset + (bytesOf ((d.listing c).instructions.take k)).length ≤ m →
    (∀ n < k, ∀ i, (d.listing c).instructions[n]? = some i → i.code ≠ [] →
      c.offset + (bytesOf ((d.listing c).instructions.take n)).length < c'.image.size) →
    (d.listing c').instructions.take k = (d.listing c).instructions.take k
  | 0, _, _, _, _, _, _, _, _, _, _ => rfl
  | k + 1, d, c, c', hd, hb, ho, hagree, hk, hend, hstart => by
    cases hw : d.hasWork c with
    | false =>
      rw [listing_done hw] at hk
      exact absurd hk (by simp)
    | true =>
      simp only [listing_step hw, Listing.instructions_cons, List.take_succ_cons, bytesOf_cons,
        List.length_append, List.length_cons] at hk hend hstart ⊢
      have haddr : c'.address = c.address := by
        unfold Cursor.address Image.addressAt
        rw [hb, ho]
      obtain ⟨hi, hn⟩ := instruction_congr hd haddr (agree_ahead ho hagree (by omega))
      have hw' : d.hasWork c' = true := by
        rw [hasWork, Bool.or_eq_true]
        cases howes : d.owes with
        | true => exact Or.inr rfl
        | false =>
          have hpos := length_code_instruction_pos howes c
          have hlt := hstart 0 (by omega) _ rfl (List.length_pos_iff.mp hpos)
          refine Or.inl (c'.hasMore_iff.mpr ?_)
          rw [ho]
          simpa using hlt
      rw [listing_step hw', Listing.instructions_cons, List.take_succ_cons, hi, hn]
      congr 1
      refine take_listing_eq k (next_ne_pcode hd c) hb ?_ hagree (by omega) ?_ ?_
      · rw [offset_advance, offset_advance, hi, ho]
      · rw [offset_advance]
        omega
      · intro n hnk j hj hne
        have hlt := hstart (n + 1) (by omega) j (by simpa using hj) hne
        rw [List.take_succ_cons, bytesOf_cons, List.length_append] at hlt
        rw [offset_advance, image_advance]
        omega

/-! ### The code of an instruction by itself -/

theorem next_eq_self (h : ∀ w, d ≠ .switching w) (c : Cursor) : d.next c = d := by
  cases d with
  | switching w => exact absurd rfl (h w)
  | mos6502 | sweet16 | z80 | pcode => rfl

theorem stream_toArray (a : Address) (l : List UInt8) {k : Nat} (hk : k < l.length) :
    Image.stream { base := a, bytes := l.toArray } k = l[k] := by
  simp [Image.stream, Array.getD, hk]

theorem listing_own_code (hd : d ≠ .pcode) (hs : ∀ w, d ≠ .switching w) (c : Cursor) :
    (d.listing { image := { base := (d.instruction c).address,
                            bytes := (d.instruction c).code.toArray } }).instructions =
      [d.instruction c] := by
  set own : Cursor := { image := { base := (d.instruction c).address,
                                   bytes := (d.instruction c).code.toArray } } with hown
  have howes : d.owes = false := by
    cases d with
    | switching w => exact absurd rfl (hs w)
    | mos6502 | sweet16 | z80 | pcode => rfl
  have hpos := length_code_instruction_pos howes c
  have haddr : own.address = c.address := by
    have h : (d.instruction c).address = c.address :=
      address_instruction (synced_of_owes_eq_false howes)
    rw [← h]
    exact Image.addressAt_zero _
  have hagree : Agree c.ahead own.ahead (d.instruction c).code.length := by
    intro k hk
    have hcode := congrArg (·[k]?) (d.code_instruction c)
    simp only [ByteStream.getElem?_take, if_pos hk, List.getElem?_eq_getElem hk] at hcode
    show _ = own.image.stream (0 + k)
    rw [Nat.zero_add, stream_toArray _ _ hk]
    exact (Option.some.inj hcode).symm
  obtain ⟨hi, -⟩ := instruction_congr hd haddr hagree
  have hw : d.hasWork own = true := by
    rw [hasWork, Bool.or_eq_true, own.hasMore_iff]
    exact Or.inl (by simpa [own, Image.size] using hpos)
  have hdone : d.hasWork (d.advance own) = false := by
    rw [hasWork, howes, Bool.or_false, Cursor.hasMore, decide_eq_false_iff_not, offset_advance, hi,
      image_advance]
    simp [own, Image.size]
  rw [listing_step hw, next_eq_self hs, listing_done hdone, Listing.instructions_cons, hi]

end Decoder

/-! ### Listings of images -/

theorem Image.stream_append_zeros (x : Image) (n k : Nat) :
    Image.stream { x with bytes := x.bytes ++ Array.replicate n 0 } k = x.stream k := by
  simp only [stream, Array.getD_eq_getD_getElem?, Array.getElem?_append, Array.getElem?_replicate]
  rcases Nat.lt_or_ge k x.bytes.size with hk | hk
  · rw [if_pos hk]
  · rw [if_neg (Nat.not_lt.mpr hk), Array.getElem?_eq_none hk]
    split <;> rfl

theorem decoder_ne_pcode {arch : Architecture} (h : arch ≠ .pcode) : arch.decoder ≠ .pcode := by
  intro hd
  cases arch with
  | pcode => exact h rfl
  | mos6502 | undocumented6502 | cmos65C02 | sweet16 | switching6502 | z80 => cases hd

theorem decoder_ne_switching {arch : Architecture} (h : arch ≠ .switching6502) (w : Switching) :
    arch.decoder ≠ .switching w := by
  intro hd
  cases arch with
  | switching6502 => exact h rfl
  | mos6502 | undocumented6502 | cmos65C02 | sweet16 | z80 | pcode => cases hd

theorem take_listing_image_eq {arch : Architecture} (harch : arch ≠ .pcode) {x y : Image}
    {m k : Nat} (hb : y.base = x.base) (hagree : Agree x.stream y.stream m)
    (hk : k ≤ (arch.listing x).instructions.length)
    (hend : (bytesOf ((arch.listing x).instructions.take k)).length ≤ m)
    (hstart : ∀ n < k, ∀ i, (arch.listing x).instructions[n]? = some i → i.code ≠ [] →
      (bytesOf ((arch.listing x).instructions.take n)).length < y.size) :
    (arch.listing y).instructions.take k = (arch.listing x).instructions.take k := by
  unfold Architecture.listing at hk hend hstart ⊢
  refine Decoder.take_listing_eq k (decoder_ne_pcode harch) hb rfl hagree hk ?_ ?_
  · rwa [Nat.zero_add]
  · simpa only [Nat.zero_add] using hstart

/-- Zeros behind an image only add to its listing. -/
theorem listing_prefix_append_zeros {arch : Architecture} (harch : arch ≠ .pcode) (x : Image)
    (n : Nat) : (arch.listing x).instructions <+:
      (arch.listing { x with bytes := x.bytes ++ Array.replicate n 0 }).instructions := by
  set y : Image := { x with bytes := x.bytes ++ Array.replicate n 0 } with hy
  have htiles : Tiles x 0 (arch.listing x).instructions :=
    tiles_listing (c := { image := x }) (Decoder.synced_of_owes_eq_false (owes_decoder arch))
  have hsize : x.size ≤ y.size := by simp [hy, Image.size]
  have hagree : Agree x.stream y.stream (bytesOf (arch.listing x).instructions).length :=
    fun j _ => (x.stream_append_zeros n j).symm
  have htake := take_listing_image_eq harch (x := x) (y := y) rfl hagree (Nat.le_refl _)
    (Nat.le_of_eq (by rw [List.take_length])) fun k _ i hi hne => by
      have := htiles.start_lt k i hi hne
      omega
  rw [List.take_length] at htake
  rw [← htake]
  exact List.take_prefix _ _

/-- **No decoder but that of p-code looks ahead.** If two images at one address, each with zeros
without end behind it, agree in their first `m` bytes, then the first `k` instructions of one
listing that end within these bytes, those with code starting inside the other image, are the first
`k` instructions of the other listing. So zeros at the end of an image only add to its listing; and
unless the decoder switches, the code of an instruction at its own address is listed as this
instruction alone. -/
theorem listing_causal {arch : Architecture} (harch : arch ≠ .pcode) (x : Image) :
    let xs := (arch.listing x).instructions
    (∀ (y : Image) (m k : Nat), y.base = x.base → (∀ j < m, x.stream j = y.stream j) →
      k ≤ xs.length → (bytesOf (xs.take k)).length ≤ m →
      (∀ n < k, ∀ i, xs[n]? = some i → i.code ≠ [] → (bytesOf (xs.take n)).length < y.size) →
      (arch.listing y).instructions.take k = xs.take k) ∧
    (∀ n, xs <+:
      (arch.listing { x with bytes := x.bytes ++ Array.replicate n 0 }).instructions) ∧
    (arch ≠ .switching6502 → ∀ i ∈ xs,
      (arch.listing { base := i.address, bytes := i.code.toArray }).instructions = [i]) := by
  refine ⟨?_, listing_prefix_append_zeros harch x, fun hsw => ?_⟩
  · intro y m k hb hagree hk hend hstart
    exact take_listing_image_eq harch hb hagree hk hend hstart
  · have hs := decoder_ne_switching hsw
    refine Decoder.forall_mem_listing (Q := fun d _ => d = arch.decoder) ?_ rfl
    rintro d c - rfl
    exact ⟨Decoder.listing_own_code (decoder_ne_pcode harch) hs c, Decoder.next_eq_self hs c⟩

/-- An indexed load without its displacement byte reads the zero behind the image. -/
theorem listing_causal_truncated :
    let x : Image := { base := 0x0100, bytes := #[0xDD, 0x7E] }
    let y : Image := { base := 0x0100, bytes := #[0xDD, 0x7E, 0x00, 0xC9] }
    let load : Instruction :=
      { address := 0x0100, code := [0xDD, 0x7E, 0x00], mnemonic := "LD",
        operands := [.text "A", .text "(IX+00H)"] }
    (Architecture.z80.listing x).instructions = [load] ∧
      (Architecture.z80.listing y).instructions.take 1 = [load] ∧
      (Architecture.z80.listing { base := 0x0100, bytes := #[0xDD, 0x7E, 0x00] }).instructions =
        [load] := by
  intro x y load
  have hx : (Architecture.z80.listing x).instructions = [load] := by decide +kernel
  obtain ⟨hruns, -, hown⟩ := @listing_causal .z80 (by decide) x
  have htake := hruns y 3 1 rfl (by decide) (by rw [hx]; decide) (by rw [hx]; decide) (by
    intro n hn i _ _
    obtain rfl : n = 0 := by omega
    decide)
  rw [hx] at htake hown
  exact ⟨hx, htake, hown (by decide) load List.mem_cons_self⟩

end Disassembly
