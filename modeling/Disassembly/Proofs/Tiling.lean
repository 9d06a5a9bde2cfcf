import Disassembly.Proofs.Mnemonics
import Disassembly.Run
import Mathlib.Tactic.Set
import Mathlib.Tactic.ByContra

/-! # Listings tile the window

The instructions of a listing lie side by side: each starts, in its offset and in its address, where
the one before it ends, and its code is what the image has there. `Tiles` says so of a list of
instructions by recursion, so that it can be put together (`tiles_append`) from the bytes that are
passed over (`tiles_skipped`) and the listing behind them (`tiles_listing`).

* `Tiles.bytesOf_eq`: the code of all of them is a stretch of the image with its zeros;
* `Tiles.address`, `Tiles.start_lt`: where the `n`-th of them stands;
* `Tiling`: what this means for the window of a run. -/

namespace Disassembly

/-- The instructions lie side by side in the image from an offset on, and those with code start
inside the image. -/
def Tiles (m : Image) : Nat → List Instruction → Prop
  | _, [] => True
  | o, i :: is =>
    i.address = m.addressAt o ∧ i.code = (m.stream.drop o).take i.code.length ∧
      (i.code ≠ [] → o < m.size) ∧ Tiles m (o + i.code.length) is

theorem tiles_append {m : Image} : ∀ {o : Nat} {is js : List Instruction},
    Tiles m o (is ++ js) ↔ Tiles m o is ∧ Tiles m (o + (bytesOf is).length) js
  | o, [], js => by simp [Tiles]
  | o, i :: is, js => by
    simp only [List.cons_append, Tiles, bytesOf_cons, List.length_append]
    rw [tiles_append, Nat.add_assoc]
    simp only [and_assoc]

/-! ### The pieces -/

/-- **A listing tiles its image** from the cursor on. -/
theorem tiles_listing {d : Decoder} {c : Cursor} (h : d.Synced c) :
    Tiles c.image c.offset (d.listing c).instructions := by
  fun_induction Decoder.listing d c with
  | case1 d c hw ih =>
    refine ⟨Decoder.address_instruction h, d.code_instruction c, fun hne => ?_, ?_⟩
    · rw [Decoder.hasWork, Bool.or_eq_true] at hw
      rcases hw with hw | hw
      · exact c.hasMore_iff.mp hw
      · exact absurd (Decoder.code_eq_nil_of_owes hw) hne
    · exact ih (Decoder.synced_step h)
  | case2 d c hw => exact trivial

/-- The line of the byte at an offset that is passed over. -/
def Image.skippedLine (m : Image) (o : Nat) : Instruction := .skipped (m.addressAt o) (m.stream o)

theorem bytesOf_skipped (m : Image) : ∀ n,
    bytesOf ((List.range n).map m.skippedLine) = m.stream.take n
  | 0 => rfl
  | n + 1 => by
    rw [List.range_succ, List.map_append, bytesOf_append, bytesOf_skipped m n,
      ByteStream.take_succ]
    rfl

theorem tiles_skipped (m : Image) : ∀ n ≤ m.size, Tiles m 0 ((List.range n).map m.skippedLine)
  | 0, _ => trivial
  | n + 1, hn => by
    rw [List.range_succ, List.map_append, tiles_append]
    refine ⟨tiles_skipped m n (by omega), ?_⟩
    rw [bytesOf_skipped, ByteStream.length_take, Nat.zero_add]
    exact ⟨rfl, rfl, fun _ => hn, trivial⟩

/-! ### What tiles say -/

theorem Tiles.bytesOf_eq {m : Image} : ∀ {o : Nat} {is : List Instruction}, Tiles m o is →
    bytesOf is = (m.stream.drop o).take (bytesOf is).length
  | _, [], _ => rfl
  | o, i :: is, ⟨_, hc, _, h⟩ => by
    rw [bytesOf_cons, List.length_append, ByteStream.take_add, ← hc, ByteStream.drop_drop,
      ← h.bytesOf_eq]

theorem Tiles.address {m : Image} : ∀ {o : Nat} {is : List Instruction}, Tiles m o is →
    ∀ n i, is[n]? = some i → i.address = m.addressAt (o + (bytesOf (is.take n)).length)
  | _, [], _, n, i, hi => by simp at hi
  | o, j :: is, ⟨ha, _, _, _⟩, 0, i, hi => by
    obtain rfl : j = i := by simpa using hi
    exact ha
  | o, j :: is, ⟨_, _, _, h⟩, n + 1, i, hi => by
    rw [h.address n i (by simpa using hi), List.take_succ_cons, bytesOf_cons, List.length_append,
      Nat.add_assoc]

theorem Tiles.start_lt {m : Image} : ∀ {o : Nat} {is : List Instruction}, Tiles m o is →
    ∀ n i, is[n]? = some i → i.code ≠ [] → o + (bytesOf (is.take n)).length < m.size
  | _, [], _, n, i, hi, _ => by simp at hi
  | o, j :: is, ⟨_, _, hs, _⟩, 0, i, hi, hne => by
    obtain rfl : j = i := by simpa using hi
    exact hs hne
  | o, j :: is, ⟨_, _, _, h⟩, n + 1, i, hi, hne => by
    have hlt := h.start_lt n i (by simpa using hi) hne
    rw [List.take_succ_cons, bytesOf_cons, List.length_append]
    omega

/-! ### The window of a run -/

theorem Image.take_stream {m : Image} {n : Nat} (h : m.size ≤ n) :
    m.stream.take n = m.bytes.toList ++ List.replicate (n - m.size) 0 := by
  have hbytes : m.stream.take m.size = m.bytes.toList := by
    refine List.ext_getElem (by simp [size]) fun k hk hk' => ?_
    have hk : k < m.bytes.size := by simpa using hk'
    simp [ByteStream.take, stream, Array.getD, hk]
  have hzeros : (m.stream.drop m.size).take (n - m.size) = List.replicate (n - m.size) 0 := by
    refine List.eq_replicate_iff.mpr ⟨ByteStream.length_take _ _, fun b hb => ?_⟩
    obtain ⟨k, -, rfl⟩ := List.mem_map.mp hb
    exact stream_of_size_le (Nat.le_add_right _ _)
  have hn : n = m.size + (n - m.size) := by omega
  rw [hn, ByteStream.take_add, hbytes, Nat.add_sub_cancel_left, hzeros]

theorem Image.toNat_addressAt (m : Image) (o : Nat) :
    (m.addressAt o).toNat = (m.base.toNat + o) % 65536 := by
  simp [addressAt, UInt16.toNat_add]

/-- What it means that instructions tile a window of bytes loaded at `start`, of which the first
`skip` bytes are passed over:
* the code of all of them is the window with zeros behind it;
* those with code start inside the window, so that behind one that reaches past it there is no more
  code;
* each has the address where the code before it ends;
* the first lines are the bytes passed over, one by one, and no other line looks like one;
* only code that switches has lines without code, and they are its directives. -/
structure Tiling (arch : Architecture) (start : Address) (window : List UInt8) (skip : Nat)
    (is : List Instruction) : Prop where
  code : ∃ k, bytesOf is = window ++ List.replicate k 0
  start_lt : ∀ n i, is[n]? = some i → i.code ≠ [] → (bytesOf (is.take n)).length < window.length
  overrun : ∀ n, window.length < (bytesOf (is.take n)).length → ∀ i ∈ is.drop n, i.code = []
  address : ∀ n i, is[n]? = some i →
    i.address.toNat = (start.toNat + (bytesOf (is.take n)).length) % 65536
  skipped : ∀ n < skip, ∃ i, is[n]? = some i ∧ i.mnemonic = "---" ∧ i.code.length = 1 ∧
    i.operands = []
  decoded : ∀ i ∈ is.drop skip, i.mnemonic ≠ "---"
  directive : ∀ i ∈ is, i.code = [] → arch = .switching6502 ∧ i.operands = [] ∧
    (i.mnemonic = ".SWEET16" ∨ i.mnemonic = ".6502")

theorem code_eq_nil_of_overrun {is : List Instruction} {size n : Nat}
    (hstart : ∀ n i, is[n]? = some i → i.code ≠ [] → (bytesOf (is.take n)).length < size)
    (hn : size < (bytesOf (is.take n)).length) : ∀ i ∈ is.drop n, i.code = [] := by
  intro i hi
  by_contra hne
  obtain ⟨k, hk⟩ := List.mem_iff_getElem?.mp hi
  rw [List.getElem?_drop] at hk
  have hlt := hstart (n + k) i hk hne
  rw [List.take_add, bytesOf_append, List.length_append] at hlt
  omega

theorem owes_decoder (arch : Architecture) : arch.decoder.owes = false := by
  cases arch <;> rfl

theorem directive_of_mem {arch : Architecture} {c : Cursor} {i : Instruction}
    (hi : i ∈ (arch.decoder.listing c).instructions) (hc : i.code = []) :
    arch = .switching6502 ∧ i.operands = [] ∧ (i.mnemonic = ".SWEET16" ∨ i.mnemonic = ".6502") := by
  obtain ⟨⟨w, hw⟩, dialect, a, rfl⟩ := Decoder.directive_of_mem_listing i hi hc
  refine ⟨?_, ?_⟩
  · cases arch with
    | switching6502 => rfl
    | mos6502 | undocumented6502 | cmos65C02 | sweet16 | z80 | pcode => cases hw
  · cases dialect with
    | mos6502 => exact ⟨rfl, Or.inr rfl⟩
    | sweet16 => exact ⟨rfl, Or.inl rfl⟩

/-- The lines of an image of which the first bytes are passed over tile it. -/
theorem tiling_image (arch : Architecture) (m : Image) {skip : Nat} (hs : skip ≤ m.size) :
    Tiling arch m.base m.bytes.toList skip ((List.range skip).map m.skippedLine ++
      (arch.decoder.listing { image := m, offset := skip }).instructions) := by
  set c : Cursor := { image := m, offset := skip } with hc
  set is := (List.range skip).map m.skippedLine ++ (arch.decoder.listing c).instructions with his
  have hlen : ((List.range skip).map m.skippedLine).length = skip := by simp
  have htiles : Tiles m 0 is := by
    refine tiles_append.mpr ⟨tiles_skipped m skip hs, ?_⟩
    rw [bytesOf_skipped, ByteStream.length_take, Nat.zero_add]
    exact tiles_listing (c := c) (Decoder.synced_of_owes_eq_false (owes_decoder arch))
  have hsize : m.size ≤ (bytesOf is).length := by
    rw [his, bytesOf_append, bytesOf_skipped, List.length_append, ByteStream.length_take]
    exact Decoder.size_le_listing arch.decoder c
  have hstart : ∀ n i, is[n]? = some i → i.code ≠ [] → (bytesOf (is.take n)).length < m.size := by
    intro n i hi hne
    have := htiles.start_lt n i hi hne
    omega
  refine ⟨⟨(bytesOf is).length - m.size, ?_⟩, hstart, ?_, ?_, ?_, ?_, ?_⟩
  · rw [← Image.take_stream hsize, ← m.stream.drop_zero]
    exact htiles.bytesOf_eq
  · exact fun n hn => code_eq_nil_of_overrun hstart hn
  · intro n i hi
    rw [htiles.address n i hi, Nat.zero_add, Image.toNat_addressAt]
  · intro n hn
    refine ⟨m.skippedLine n, ?_, rfl, rfl, rfl⟩
    rw [List.getElem?_append_left (by omega), List.getElem?_map, List.getElem?_range hn]
    rfl
  · rw [his, List.drop_left' hlen]
    exact Decoder.forall_mem_listing (Q := fun _ _ => True)
      (fun d c _ _ => ⟨d.mnemonic_instruction_ne_skipped c, trivial⟩) trivial
  · intro i hi hcode
    rcases List.mem_append.mp hi with hi | hi
    · obtain ⟨o, -, rfl⟩ := List.mem_map.mp hi
      cases hcode
    · exact directive_of_mem hi hcode

/-! ### Runs -/

theorem Settings.windowEnd_le (s : Settings) (size : Nat) : s.windowEnd size ≤ size := by
  unfold windowEnd
  split
  · exact Nat.le_refl size
  · exact Nat.min_le_right _ _

theorem Settings.skip_le_windowEnd {s : Settings} {size : Nat} (h : s.skip ≤ size) :
    s.skip ≤ s.windowEnd size := by
  unfold windowEnd
  split
  · exact h
  · exact Nat.le_min.mpr ⟨Nat.le_add_right _ _, h⟩

theorem Settings.toList_image (s : Settings) (bytes : Array UInt8) :
    (s.image bytes).bytes.toList = bytes.toList.take (s.windowEnd bytes.size) := by
  simp [image, Image.cut]

theorem Settings.size_image (s : Settings) (bytes : Array UInt8) :
    (s.image bytes).size = s.windowEnd bytes.size := by
  rw [Image.size, ← Array.length_toList, toList_image, List.length_take, Array.length_toList]
  exact Nat.min_eq_left (s.windowEnd_le _)

/-- A run gives a report exactly if there are enough bytes to pass over and the library has the
label groups. -/
theorem Settings.run_eq_ok_iff {s : Settings} {bytes : Array UInt8} {r : Report} :
    s.run bytes = .ok r ↔ s.skip ≤ bytes.size ∧
      ∃ seed, s.library.seed s.labelGroups = .ok seed ∧ r = s.report bytes seed := by
  rw [run_eq]
  by_cases hs : bytes.size < s.skip
  · rw [if_pos hs]
    exact ⟨(fun h => nomatch h), fun h => absurd h.1 (Nat.not_le.mpr hs)⟩
  · rw [if_neg hs]
    cases hseed : s.library.seed s.labelGroups with
    | error e =>
      constructor
      · intro h; cases h
      · rintro ⟨-, seed, h, -⟩; cases h
    | ok seed =>
      constructor
      · intro h
        exact ⟨Nat.not_lt.mp hs, seed, rfl, (Except.ok.inj h).symm⟩
      · rintro ⟨-, seed', h, rfl⟩
        obtain rfl := Except.ok.inj h
        rfl

/-- **The instructions of a run tile the window.** A run that passes over no more bytes than there
are, with label groups that the library has, gives a report, and the instructions of every report
tile the input from its first byte to the end of the window; so do those of the listing of a whole
image. -/
theorem instructions_tile_window :
    (∀ (s : Settings) (bytes : Array UInt8) (r : Report), s.run bytes = .ok r →
      Tiling s.architecture s.startAddress
        (bytes.toList.take
          (if s.limit = 0 then bytes.size else min (s.skip + s.limit) bytes.size))
        s.skip r.instructions) ∧
    (∀ (s : Settings) (bytes : Array UInt8), s.skip ≤ bytes.size →
      (∃ seed, s.library.seed s.labelGroups = .ok seed) → ∃ r, s.run bytes = .ok r) ∧
    ∀ (arch : Architecture) (m : Image),
      Tiling arch m.base m.bytes.toList 0 (arch.listing m).instructions := by
  refine ⟨fun s bytes r hr => ?_, ?_, fun arch m => tiling_image arch m (Nat.zero_le _)⟩
  · obtain ⟨hs, seed, -, rfl⟩ := Settings.run_eq_ok_iff.mp hr
    have hskip : s.skip ≤ (s.image bytes).size := by
      rw [s.size_image]
      exact Settings.skip_le_windowEnd hs
    have hwindow := s.toList_image bytes
    unfold Settings.windowEnd at hwindow
    rw [← hwindow]
    exact tiling_image s.architecture (s.image bytes) hskip
  · rintro s bytes hs ⟨seed, hseed⟩
    exact ⟨s.report bytes seed, Settings.run_eq_ok_iff.mpr ⟨hs, seed, hseed, rfl⟩⟩

/-- A window that ends with a call into SWEET16 and runs past the last address. -/
theorem instructions_tile_window_wrapping :
    let s : Settings :=
      { architecture := .switching6502, start := some 0xFFFE, skip := 1, limit := 3,
        groups := some [] }
    ∃ r, s.run #[0xEA, 0x20, 0x89, 0xF6, 0x60] = .ok r ∧
      Tiling .switching6502 0xFFFE [0xEA, 0x20, 0x89, 0xF6] 1 r.instructions := by
  intro s
  obtain ⟨r, hr⟩ := instructions_tile_window.2.1 s #[0xEA, 0x20, 0x89, 0xF6, 0x60] (by decide)
    ⟨.empty, rfl⟩
  exact ⟨r, hr, instructions_tile_window.1 s _ r hr⟩

end Disassembly
