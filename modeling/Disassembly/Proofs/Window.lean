import Disassembly.Proofs.Splitting

/-! # The window of a run

The settings of a run choose a window of the input: its end is that of the input or `limit` bytes
behind the bytes that are passed over, and its front part is passed over. What is outside the window
has no part in the report.

The rest of an image is listed in place as it is by itself (`listing_drop`). For p-code this needs
more: a jump through the table reads a word at up to 120 bytes before the end of the image, which
must not be one of the bytes that are passed over (`PCode.tableMoved_drop`). -/

namespace Disassembly

/-! ### p-code from the middle of an image -/

namespace PCode

theorem Relocated.eq_of_zero {i i' : Instruction} (h : Relocated 0 i i') : i' = i := by
  have hsame : ∀ {os os' : List Operand}, List.Forall₂ (Operand.Moved 0) os os' → os' = os :=
    eq_of_forall₂ fun _ _ => Operand.Moved.eq_of_zero
  refine h.toMoved.eq_of_zero ?_
  by_cases hx : i.mnemonic = "XJP"
  · obtain ⟨range, past, cases, cases', ho, ho', hcases⟩ := h.caseJump hx
    rw [ho, ho', hsame hcases, UInt16.add_zero]
  · exact hsame (h.other hx)

theorem byteAt_drop (m : Image) (n : Nat) {i : Int} (hi : 0 ≤ i) :
    (m.drop n).byteAt i = m.byteAt (n + i) := by
  have hn : 0 ≤ (n : Int) + i := by omega
  have hsum : (n + i).toNat = n + i.toNat := by omega
  unfold Image.byteAt
  rw [if_pos hi, if_pos hn, m.stream_drop, hsum]
  rfl

theorem wordAt_drop (m : Image) (n : Nat) {i : Int} (hi : 0 ≤ i) :
    (m.drop n).wordAt i = m.wordAt (n + i) := by
  unfold Image.wordAt
  rw [byteAt_drop m n hi, byteAt_drop m n (by omega), Int.add_assoc]

/-- With 120 bytes left every word of the table that a jump can go through is among them. -/
theorem tableMoved_drop {m : Image} {n : Nat} (hn : 120 ≤ m.size - n) :
    TableMoved 0 m (m.drop n) := by
  refine ⟨rfl, fun b _ => ?_⟩
  have hb := le_signed b
  have hoffset : slotOffset m (signed b) = n + slotOffset (m.drop n) (signed b) := by
    unfold slotOffset
    rw [m.size_drop]
    omega
  have hslot : 0 ≤ slotOffset (m.drop n) (signed b) := by
    unfold slotOffset attributeBytes
    rw [m.size_drop]
    omega
  simp only [slotTarget]
  rw [hoffset, wordAt_drop m n hslot, UInt16.add_zero]
  congr 1
  show (m.base + UInt16.ofNat n).move _ = _
  have hnat : UInt16.ofInt (n : Int) = UInt16.ofNat n := by
    rw [← UInt16.toNat_inj]
    simp only [UInt16.ofInt, UInt16.toNat_ofNat']
    omega
  unfold Address.move
  rw [UInt16.ofInt_add, UInt16.add_assoc, hnat]

theorem listing_drop {m : Image} {n : Nat} (hn : 120 ≤ m.size - n) :
    (Decoder.pcode.listing { image := m.drop n }).instructions =
      (Decoder.pcode.listing { image := m, offset := n }).instructions :=
  eq_of_forall₂ (fun _ _ => Relocated.eq_of_zero)
    (listing_moved (Cursor.moved_drop (by omega)) (tableMoved_drop hn))

end PCode

/-! ### The end of the window -/

namespace Settings

/-- A sum that stops at the largest number of 64 bits gives the same window, since no input is
larger. -/
theorem windowEnd_eq_saturated (s : Settings) {size : Nat} (h : size < UInt64.size) :
    s.windowEnd size =
      if s.limit = 0 then size else min (min (s.skip + s.limit) (UInt64.size - 1)) size := by
  unfold windowEnd
  split
  · rfl
  · omega

theorem image_cut (s : Settings) (bytes : Array UInt8) :
    { s with limit := 0 }.image (bytes.take (s.windowEnd bytes.size)) = s.image bytes := by
  have hall : ∀ size, { s with limit := 0 }.windowEnd size = size := fun _ => if_pos rfl
  have hwhole : ∀ xs : Array UInt8, xs.take xs.size = xs := fun _ => Array.extract_size
  unfold image Image.cut
  rw [hall]
  simp only [hwhole]
  rfl

theorem report_cut (s : Settings) (bytes : Array UInt8) (seed : LabelMap) :
    { s with limit := 0 }.report (bytes.take (s.windowEnd bytes.size)) seed =
      s.report bytes seed := by
  unfold report
  rw [s.image_cut]
  rfl

/-- **Bytes behind the end of the window have no part in a run.** -/
theorem run_cut (s : Settings) (bytes : Array UInt8) :
    s.run bytes = { s with limit := 0 }.run (bytes.take (s.windowEnd bytes.size)) := by
  have hsize : (bytes.take (s.windowEnd bytes.size)).size = s.windowEnd bytes.size := by
    have hle := s.windowEnd_le bytes.size
    simp only [Array.size_extract]
    omega
  rw [run_eq, run_eq, hsize]
  by_cases hs : bytes.size < s.skip
  · have hend : s.windowEnd bytes.size = bytes.size := by
      unfold windowEnd
      split <;> omega
    rw [hend, if_pos hs, if_pos hs]
  · have hend := s.skip_le_windowEnd (Nat.not_lt.mp hs)
    rw [if_neg hs, if_neg (Nat.not_lt.mpr hend)]
    congr 1
    funext seed
    exact (s.report_cut bytes seed).symm

/-! ### The front of the window -/

theorem drop_image (s : Settings) (bytes : Array UInt8) :
    (s.image bytes).drop s.skip =
      { base := s.startAddress + UInt16.ofNat s.skip
        bytes := bytes.extract s.skip (s.windowEnd bytes.size) } := by
  have hend := s.windowEnd_le bytes.size
  unfold image Image.cut Image.drop
  congr 1
  simp [Nat.min_eq_left hend]

theorem skippedLines_image (s : Settings) {bytes : Array UInt8} (hs : s.skip ≤ bytes.size) :
    s.skippedLines (s.image bytes) = (List.range s.skip).map fun n =>
      { address := s.startAddress + UInt16.ofNat n, code := [bytes.getD n 0],
        mnemonic := "---" } := by
  refine List.map_congr_left fun n hn => ?_
  have hskip := s.skip_le_windowEnd hs
  have hend := s.windowEnd_le bytes.size
  have hlt : n < s.windowEnd bytes.size := Nat.lt_of_lt_of_le (List.mem_range.mp hn) hskip
  have hbyte : (s.image bytes).stream n = bytes.getD n 0 := by
    simp only [Image.stream, image, Image.cut, Array.getD_eq_getD_getElem?, Array.getElem?_extract]
    rw [if_pos (by omega), Nat.zero_add]
  rw [Instruction.skipped, hbyte]
  rfl

end Settings

/-- **Skip and limit only choose a window.** A run gives what the run without limit gives on the
input cut at the end of the window. Its lines are those of the bytes passed over, and behind them
the listing of the rest of the window as an image of its own; for p-code this holds if the rest has
at least 120 bytes. -/
theorem run_window (s : Settings) (bytes : Array UInt8) :
    let stop := if s.limit = 0 then bytes.size else min (s.skip + s.limit) bytes.size
    s.run bytes = { s with limit := 0 }.run (bytes.take stop) ∧
    ∀ r, s.run bytes = .ok r → s.architecture ≠ .pcode ∨ 120 ≤ stop - s.skip →
      r.instructions =
        (List.range s.skip).map (fun n =>
          { address := s.startAddress + UInt16.ofNat n, code := [bytes.getD n 0],
            mnemonic := "---" }) ++
        (s.architecture.listing { base := s.startAddress + UInt16.ofNat s.skip,
                                  bytes := bytes.extract s.skip stop }).instructions := by
  intro stop
  refine ⟨s.run_cut bytes, fun r hr harch => ?_⟩
  obtain ⟨hs, seed, -, rfl⟩ := Settings.run_eq_ok_iff.mp hr
  have hskip : s.skip ≤ (s.image bytes).size := by
    rw [s.size_image]
    exact s.skip_le_windowEnd hs
  set d := s.architecture.decoder with hd
  have hrest : (d.listing { image := (s.image bytes).drop s.skip }).instructions =
      (d.listing { image := s.image bytes, offset := s.skip }).instructions := by
    by_cases hp : s.architecture = .pcode
    · have hleft : 120 ≤ (s.image bytes).size - s.skip := by
        rw [s.size_image]
        exact harch.resolve_left (fun h => h hp)
      rw [hd, hp]
      exact PCode.listing_drop hleft
    · exact (listing_drop (decoder_ne_pcode hp) hskip).1
  show s.skippedLines (s.image bytes) ++ _ = _
  rw [s.skippedLines_image hs, ← hrest, s.drop_image]
  rfl

/-- A procedure of 120 bytes behind one that is passed over, and with more bytes behind it. -/
theorem run_window_procedure :
    let s : Settings := { architecture := .pcode, start := some 0xFFFF, skip := 1, limit := 120 }
    let bytes : Array UInt8 := Array.replicate 200 0xD7
    ∃ r, s.run bytes = .ok r ∧ 120 ≤ 121 - s.skip ∧
      { s with limit := 0 }.run (bytes.take 121) = .ok r ∧
      r.instructions =
        [{ address := 0xFFFF, code := [0xD7], mnemonic := "---" }] ++
        (Architecture.pcode.listing
          { base := 0x0000, bytes := bytes.extract 1 121 }).instructions := by
  intro s bytes
  have hsize : bytes.size = 200 := Array.size_replicate
  have hstop : (if s.limit = 0 then bytes.size else min (s.skip + s.limit) bytes.size) = 121 := by
    rw [hsize]
    rfl
  have hrun : s.run bytes = .ok (s.report bytes .empty) :=
    Settings.run_eq_ok_iff.mpr ⟨by rw [hsize]; decide, .empty, rfl, rfl⟩
  obtain ⟨hcut, hlines⟩ := run_window s bytes
  simp only [hstop] at hcut hlines
  have hbyte : bytes.getD 0 0 = 0xD7 := by simp [bytes, Array.getD]
  have hline := hlines _ hrun (Or.inr (by decide))
  have hrange : List.range s.skip = [0] := rfl
  have hfirst : s.startAddress + UInt16.ofNat 0 = 0xFFFF := by decide
  have hrest : s.startAddress + UInt16.ofNat s.skip = 0x0000 := by decide
  rw [hrange, List.map_singleton, hbyte, hfirst, hrest] at hline
  exact ⟨_, hrun, by decide, hcut.symm.trans hrun, hline⟩

end Disassembly
