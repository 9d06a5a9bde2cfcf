import Disassembly.Proofs.Relocation

/-! # Listings in pieces

A cursor in the middle of an image has the same bytes ahead, at the same addresses, as a fresh
cursor on an image of the rest. This is a move by zero, so outside p-code the two list the same
lines.

* `listing_drop`: the rest of an image, listed in place or as an image of its own.
* `listing_split`: a longer image is listed like its front part up to the end of the front part, and
  then goes on with the decoder in the state that the front part leaves it in. -/

namespace Disassembly

/-! ### Moves by zero -/

theorem Operand.Moved.eq_of_zero {o o' : Operand} (h : o.Moved 0 o') : o' = o := by
  cases h with
  | text v => rfl
  | dollar t a | suffixed t a => rw [UInt16.add_zero]

theorem eq_of_forall₂ {α : Type} {R : α → α → Prop} (hR : ∀ a b, R a b → b = a) {l l' : List α}
    (h : List.Forall₂ R l l') : l' = l := by
  induction h with
  | nil => rfl
  | cons hab _ ih => rw [hR _ _ hab, ih]

theorem Instruction.Moved.eq_of_zero {i i' : Instruction} (h : i.Moved 0 i')
    (ho : i'.operands = i.operands) : i' = i := by
  obtain ⟨haddr, hcode, hname, -⟩ := h
  rw [UInt16.add_zero] at haddr
  cases i
  cases i'
  simp only at haddr hcode hname ho
  rw [haddr, hcode, hname, ho]

theorem Instruction.Relocated.eq_of_zero {i i' : Instruction} (h : i.Relocated 0 i') : i' = i := by
  refine h.toMoved.eq_of_zero ?_
  by_cases hb : i.mnemonic ∈ branchMnemonics
  · exact eq_of_forall₂ (fun _ _ => Operand.Moved.eq_of_zero) (h.branch hb)
  · exact h.other hb

theorem Decoder.moved_zero (d : Decoder) : d.moved 0 = d := by
  cases d with
  | switching w =>
    have hw : w.pending.map (· + 0) = w.pending := by simp
    rw [moved, Switching.moved, hw]
  | mos6502 | sweet16 | z80 | pcode => rfl

/-! ### The rest of an image -/

/-- The image without its first bytes. -/
def Image.drop (m : Image) (n : Nat) : Image :=
  { base := m.addressAt n, bytes := m.bytes.extract n }

theorem Image.size_drop (m : Image) (n : Nat) : (m.drop n).size = m.size - n := by
  simp [drop, size]

theorem Image.stream_drop (m : Image) (n : Nat) : (m.drop n).stream = m.stream.drop n := by
  funext k
  simp only [stream, drop, ByteStream.drop, Array.getD_eq_getD_getElem?, Array.getElem?_extract]
  split
  · rfl
  · next h =>
    have hk : m.bytes.size ≤ n + k := by omega
    rw [Array.getElem?_eq_none hk]

theorem Cursor.moved_drop {m : Image} {n : Nat} (hn : n ≤ m.size) :
    Cursor.Moved 0 { image := m, offset := n } { image := m.drop n } := by
  refine ⟨?_, ?_, ?_, rfl⟩
  · show (m.drop n).addressAt 0 = m.addressAt n + 0
    rw [Image.addressAt_zero, UInt16.add_zero]
    rfl
  · show (m.drop n).stream.drop 0 = m.stream.drop n
    rw [ByteStream.drop_zero, m.stream_drop]
  · simp only [m.size_drop]
    omega

/-- **The rest of an image is listed in place as it is by itself**, outside p-code. -/
theorem listing_drop {d : Decoder} (hd : d ≠ .pcode) {m : Image} {n : Nat} (hn : n ≤ m.size) :
    (d.listing { image := m.drop n }).instructions =
        (d.listing { image := m, offset := n }).instructions ∧
      (d.listing { image := m.drop n }).decoder =
        (d.listing { image := m, offset := n }).decoder := by
  obtain ⟨hlines, hdec⟩ := listing_moved hd (Cursor.moved_drop hn)
  rw [Decoder.moved_zero] at hlines hdec
  rw [Decoder.moved_zero] at hdec
  exact ⟨eq_of_forall₂ (fun _ _ => Instruction.Relocated.eq_of_zero) hlines, hdec⟩

/-! ### The front of an image -/

open ByteStream (Agree)

namespace Decoder

/-- **A longer image is listed like its front part, and goes on from there**, if the lines of the
front part end with it. -/
theorem listing_split {d : Decoder} (c c' : Cursor) (hd : d ≠ .pcode)
    (hb : c'.image.base = c.image.base) (ho : c'.offset = c.offset)
    (hagree : Agree c.image.stream c'.image.stream c.image.size)
    (hsize : c.image.size ≤ c'.image.size)
    (hend : c.offset + (bytesOf (d.listing c).instructions).length = c.image.size) :
    let rest := (d.listing c).decoder.listing
      { image := c'.image, offset := c.image.size, mark := c'.mark }
    (d.listing c').instructions = (d.listing c).instructions ++ rest.instructions ∧
      (d.listing c').decoder = rest.decoder := by
  intro rest
  fun_induction listing d c generalizing c' with
  | case1 d c hw ih =>
    simp only [Listing.instructions_cons, bytesOf_cons, List.length_append] at hend ⊢
    have haddr : c'.address = c.address := by
      unfold Cursor.address Image.addressAt
      rw [hb, ho]
    obtain ⟨hi, hn⟩ := instruction_congr hd haddr (agree_ahead ho hagree (by omega))
    have hw' : d.hasWork c' = true := by
      rw [hasWork, Bool.or_eq_true, c.hasMore_iff] at hw
      rw [hasWork, Bool.or_eq_true, c'.hasMore_iff]
      exact hw.imp_left fun hlt => by omega
    -- Outside p-code a step leaves the mark alone, so the cursor at the boundary is the same.
    have hmark : (d.advance c').mark = c'.mark := markAfter_of_ne_pcode hd c'
    have hoff : (d.advance c').offset = (d.advance c).offset := by
      rw [offset_advance, offset_advance, hi, ho]
    have hend' : (d.advance c).offset +
        (bytesOf ((d.next c).listing (d.advance c)).instructions).length = c.image.size := by
      rw [offset_advance]
      omega
    obtain ⟨hlines, hdec⟩ := ih (d.advance c') (next_ne_pcode hd c) hb hoff hagree hsize hend'
    rw [image_advance, image_advance, hmark] at hlines hdec
    rw [listing_step hw', hi, hn, Listing.instructions_cons, Listing.decoder_cons, hlines, hdec]
    exact ⟨rfl, rfl⟩
  | case2 d c hw =>
    have hoff : c.image.size = c'.offset := by
      rw [ho]
      exact hend.symm
    have hrest : rest = d.listing c' := by
      show d.listing { image := c'.image, offset := c.image.size, mark := c'.mark } = _
      rw [hoff]
    rw [hrest]
    exact ⟨rfl, rfl⟩

end Decoder

theorem listing_ne_pcode {d : Decoder} (hd : d ≠ .pcode) (c : Cursor) :
    (d.listing c).decoder ≠ .pcode := by
  fun_induction Decoder.listing d c with
  | case1 d c hw ih => exact ih (Decoder.next_ne_pcode hd c)
  | case2 d c hw => exact hd

/-! ### Two images one after the other -/

theorem Image.size_append (x : Image) (y : Array UInt8) :
    Image.size { x with bytes := x.bytes ++ y } = x.size + y.size := Array.size_append

theorem Image.stream_append (x : Image) (y : Array UInt8) :
    Agree x.stream (Image.stream { x with bytes := x.bytes ++ y }) x.size := by
  intro k hk
  simp only [stream, Array.getD_eq_getD_getElem?]
  rw [Array.getElem?_append_left hk]

theorem Image.drop_append (x : Image) (y : Array UInt8) :
    Image.drop { x with bytes := x.bytes ++ y } x.size =
      { base := x.base + UInt16.ofNat x.size, bytes := y } := by
  have hbytes : (x.bytes ++ y).extract x.bytes.size = y := by
    rw [Array.extract_append]
    simp
  unfold drop
  simp only [size, hbytes]
  rfl

/-- **A stream of code can be listed in two pieces**, with one decoder that keeps its state, if the
lines of the first piece end with it: the lines of the two pieces are those of the whole, the
decoder ends in the same state, and it owes no directive. -/
theorem listing_append_images {arch : Architecture} (harch : arch ≠ .pcode) (x : Image)
    (y : Array UInt8) (hx : (bytesOf (arch.listing x).instructions).length = x.size) :
    let first := arch.listing x
    let second := first.decoder.listing
      { image := { base := x.base + UInt16.ofNat x.size, bytes := y } }
    let whole := arch.listing { x with bytes := x.bytes ++ y }
    first.instructions ++ second.instructions = whole.instructions ∧
      second.decoder = whole.decoder ∧ second.decoder.owes = false ∧
      whole.decoder.owes = false := by
  intro first second whole
  have hd := decoder_ne_pcode harch
  set xy : Image := { x with bytes := x.bytes ++ y } with hxy
  have hsize : x.size ≤ xy.size := by
    rw [hxy, x.size_append]
    omega
  have hend : 0 + (bytesOf (arch.decoder.listing { image := x }).instructions).length = x.size := by
    rw [Nat.zero_add]
    exact hx
  have hsplit := Decoder.listing_split { image := x } { image := xy } hd rfl rfl
    (x.stream_append y) hsize hend
  have hfirst : first.decoder ≠ .pcode := listing_ne_pcode hd _
  obtain ⟨hlines, hdec⟩ := listing_drop hfirst hsize
  rw [hxy, x.drop_append] at hlines hdec
  have howes : whole.decoder.owes = false := by
    have h := Decoder.hasWork_listing arch.decoder { image := xy }
    exact (Bool.or_eq_false_iff.mp h).2
  have hsame : second.decoder = whole.decoder := hdec.trans hsplit.2.symm
  refine ⟨?_, hsame, ?_, howes⟩
  · rw [show second.instructions = _ from hlines]
    exact hsplit.1.symm
  · rw [hsame]
    exact howes

/-- The first piece ends with a call into SWEET16 at the last address. -/
theorem listing_append_images_after_call :
    let x : Image := { base := 0xFFFD, bytes := #[0x20, 0x89, 0xF6] }
    let first := Architecture.switching6502.listing x
    let second := first.decoder.listing { image := { base := 0x0000, bytes := #[0x00, 0x60] } }
    let whole := Architecture.switching6502.listing
      { base := 0xFFFD, bytes := #[0x20, 0x89, 0xF6, 0x00, 0x60] }
    first.instructions.map Instruction.mnemonic = ["JSR", ".SWEET16"] ∧
      second.instructions.map Instruction.mnemonic = ["RTN", ".6502", "RTS"] ∧
      first.instructions ++ second.instructions = whole.instructions ∧
      second.decoder = whole.decoder ∧ second.decoder.owes = false ∧
      whole.decoder.owes = false := by
  intro x first second whole
  have hrest : ({ base := x.base + UInt16.ofNat x.size, bytes := #[0x00, 0x60] } : Image) =
      { base := 0x0000, bytes := #[0x00, 0x60] } := by decide
  have hwhole : ({ x with bytes := x.bytes ++ #[0x00, 0x60] } : Image) =
      { base := 0xFFFD, bytes := #[0x20, 0x89, 0xF6, 0x00, 0x60] } := by decide
  have hpieces := @listing_append_images .switching6502 (by decide) x #[0x00, 0x60]
    (by decide +kernel)
  rw [hrest, hwhole] at hpieces
  exact ⟨by decide +kernel, by decide +kernel, hpieces⟩

end Disassembly
