import Disassembly.Decoder

/-! # Listings step by step

A listing is a run of steps, and what holds of the whole run follows from what one step does. This
module says once what that is:

* the instruction of a step has the bytes ahead of the cursor as its code (`code_instruction`) and
  the cursor moves behind them (`offset_advance`, `address_advance`);
* if the directive that is owed belongs to the address of the cursor, the instruction has this
  address, and it is so again after the step (`Synced`, `address_instruction`, `synced_step`);
* an instruction without code is a directive that was owed (`exists_directive`).

`forall_mem_listing` turns what a step keeps into a fact about every instruction of a listing. -/

namespace Disassembly

/-- The bytes of the instructions, one after the other. -/
def bytesOf (is : List Instruction) : List UInt8 := is.flatMap Instruction.code

@[simp] theorem bytesOf_nil : bytesOf [] = [] := rfl

@[simp] theorem bytesOf_cons (i : Instruction) (is : List Instruction) :
    bytesOf (i :: is) = i.code ++ bytesOf is := rfl

@[simp] theorem bytesOf_append (is js : List Instruction) :
    bytesOf (is ++ js) = bytesOf is ++ bytesOf js := List.flatMap_append

namespace Listing

@[simp] theorem instructions_cons (i : Instruction) (es : List Event) (l : Listing) :
    (l.cons i es).instructions = i :: l.instructions := rfl

@[simp] theorem events_cons (i : Instruction) (es : List Event) (l : Listing) :
    (l.cons i es).events = es ++ l.events := rfl

@[simp] theorem decoder_cons (i : Instruction) (es : List Event) (l : Listing) :
    (l.cons i es).decoder = l.decoder := rfl

@[simp] theorem cursor_cons (i : Instruction) (es : List Event) (l : Listing) :
    (l.cons i es).cursor = l.cursor := rfl

end Listing

namespace Decoder

variable {d : Decoder} {c : Cursor}

theorem listing_step (h : d.hasWork c = true) :
    d.listing c = ((d.next c).listing (d.advance c)).cons (d.instruction c) (d.events c) := by
  rw [listing, if_pos h]

theorem listing_done (h : d.hasWork c = false) :
    d.listing c = { instructions := [], events := [], decoder := d, cursor := c } := by
  rw [listing, if_neg (by rw [h]; decide)]

/-! ### The cursor of a step -/

@[simp] theorem image_advance (d : Decoder) (c : Cursor) : (d.advance c).image = c.image := rfl

@[simp] theorem offset_advance (d : Decoder) (c : Cursor) :
    (d.advance c).offset = c.offset + (d.instruction c).code.length := rfl

@[simp] theorem mark_advance (d : Decoder) (c : Cursor) : (d.advance c).mark = d.markAfter c := rfl

theorem address_advance (d : Decoder) (c : Cursor) :
    (d.advance c).address = c.address + UInt16.ofNat (d.instruction c).code.length :=
  Cursor.address_advance c _

theorem code_instruction (d : Decoder) (c : Cursor) :
    (d.instruction c).code = c.ahead.take (d.instruction c).code.length := by
  cases d with
  | mos6502 v => simp [instruction, Mos6502.Variant.decode]
  | sweet16 => simp [instruction, Sweet16.decode]
  | z80 => simp [instruction, Z80.decode]
  | pcode => simp [instruction, PCode.Reading.instruction]
  | switching w =>
    simp only [instruction, Switching.decode]
    cases w.pending with
    | some a => cases w.dialect <;> simp [Dialect.directive]
    | none => cases w.dialect <;> simp [Dialect.decode, Mos6502.Variant.decode, Sweet16.decode]

/-! ### Directives that are owed -/

/-- The address of the directive that is owed. -/
def owedAt : Decoder → Option Address
  | switching w => w.pending
  | _ => none

/-- A directive that is owed belongs to the address of the cursor. -/
def Synced (d : Decoder) (c : Cursor) : Prop := ∀ a, d.owedAt = some a → a = c.address

theorem synced_of_owes_eq_false (h : d.owes = false) : d.Synced c := by
  intro a ha
  cases d with
  | switching w => simp_all [owes, owedAt]
  | mos6502 | sweet16 | z80 | pcode => simp [owedAt] at ha

theorem address_instruction (h : d.Synced c) : (d.instruction c).address = c.address := by
  cases d with
  | mos6502 | sweet16 | z80 | pcode => rfl
  | switching w =>
    simp only [instruction, Switching.decode]
    cases hw : w.pending with
    | some a =>
      have ha : a = c.address := h a hw
      cases w.dialect <;> exact ha
    | none => cases w.dialect <;> rfl

/-- A directive is owed only right behind the instruction that made the change. -/
theorem synced_step (h : d.Synced c) : (d.next c).Synced (d.advance c) := by
  cases d with
  | mos6502 | sweet16 | z80 | pcode => exact synced_of_owes_eq_false rfl
  | switching w =>
    intro a ha
    cases hw : w.pending with
    | some b => simp [next, owedAt, Switching.next, hw] at ha
    | none =>
      have hi : (switching w).instruction c = w.dialect.decode c.address c.ahead := by
        simp only [instruction, Switching.decode, hw]
      have haddr := address_instruction h
      simp only [next, owedAt, Switching.next, hw, Switching.behind] at ha
      rw [address_advance, ← haddr, hi]
      split at ha
      · exact (Option.some.inj ha).symm
      · cases ha

theorem owes_eq_true_of_code_eq_nil (h : (d.instruction c).code = []) : d.owes = true := by
  cases hd : d.owes with
  | true => rfl
  | false =>
    have hpos := length_code_instruction_pos hd c
    rw [h] at hpos
    exact absurd hpos (Nat.lt_irrefl 0)

theorem exists_directive (h : (d.instruction c).code = []) :
    ∃ w a, d = switching w ∧ w.pending = some a ∧ d.instruction c = w.dialect.directive a := by
  have ho := owes_eq_true_of_code_eq_nil h
  cases d with
  | mos6502 | sweet16 | z80 | pcode => simp [owes] at ho
  | switching w =>
    obtain ⟨a, ha⟩ := Option.isSome_iff_exists.mp (by simpa [owes] using ho)
    exact ⟨w, a, rfl, ha, by simp only [instruction, Switching.decode, ha]⟩

theorem code_eq_nil_of_owes (h : d.owes = true) : (d.instruction c).code = [] := by
  cases d with
  | mos6502 | sweet16 | z80 | pcode => simp [owes] at h
  | switching w =>
    obtain ⟨a, ha⟩ := Option.isSome_iff_exists.mp (by simpa [owes] using h)
    simp only [instruction, Switching.decode, ha]
    cases w.dialect <;> rfl

/-! ### All instructions of a listing -/

/-- What a step keeps holds at every step of a listing, and with it what it says of the instruction
there. -/
theorem forall_mem_listing {Q : Decoder → Cursor → Prop} {P : Instruction → Prop}
    (step : ∀ d c, d.hasWork c = true → Q d c →
      P (d.instruction c) ∧ Q (d.next c) (d.advance c)) {d : Decoder} {c : Cursor} (h : Q d c) :
    ∀ i ∈ (d.listing c).instructions, P i := by
  fun_induction listing d c with
  | case1 d c hw ih =>
    obtain ⟨hp, hq⟩ := step d c hw h
    intro i hi
    rcases List.mem_cons.mp hi with rfl | hi
    · exact hp
    · exact ih hq i hi
  | case2 d c hw => intro i hi; cases hi

/-- Only the decoder that switches lists instructions without code, and they are directives. -/
theorem directive_of_mem_listing :
    ∀ i ∈ (d.listing c).instructions, i.code = [] →
      (∃ w, d = switching w) ∧ ∃ dialect a, i = Dialect.directive dialect a := by
  have hstep : ∀ d' c', d'.hasWork c' = true → ((∃ w, d' = switching w) → ∃ w, d = switching w) →
      ((d'.instruction c').code = [] →
        (∃ w, d = switching w) ∧ ∃ dialect a, d'.instruction c' = Dialect.directive dialect a) ∧
      ((∃ w, d'.next c' = switching w) → ∃ w, d = switching w) := by
    intro d' c' _ hq
    refine ⟨fun hc => ?_, fun ⟨w, hw⟩ => hq ?_⟩
    · obtain ⟨w, a, hd, -, hi⟩ := exists_directive hc
      exact ⟨hq ⟨w, hd⟩, w.dialect, a, hi⟩
    · cases d' with
      | switching w => exact ⟨w, rfl⟩
      | mos6502 | sweet16 | z80 | pcode => exact ⟨w, hw⟩
  exact forall_mem_listing hstep id

/-! ### The end of a listing -/

theorem hasWork_listing (d : Decoder) (c : Cursor) :
    (d.listing c).decoder.hasWork (d.listing c).cursor = false := by
  fun_induction listing d c with
  | case1 d c h ih => exact ih
  | case2 d c h => exact Bool.eq_false_iff.mpr h

theorem image_cursor_listing (d : Decoder) (c : Cursor) :
    (d.listing c).cursor.image = c.image := by
  fun_induction listing d c with
  | case1 d c h ih => rw [Listing.cursor_cons, ih, image_advance]
  | case2 d c h => rfl

theorem offset_cursor_listing (d : Decoder) (c : Cursor) :
    (d.listing c).cursor.offset = c.offset + (bytesOf (d.listing c).instructions).length := by
  fun_induction listing d c with
  | case1 d c h ih =>
    rw [Listing.cursor_cons, ih, Listing.instructions_cons, bytesOf_cons, List.length_append,
      offset_advance]
    omega
  | case2 d c h => rfl

theorem size_le_listing (d : Decoder) (c : Cursor) :
    c.image.size ≤ c.offset + (bytesOf (d.listing c).instructions).length := by
  have h := hasWork_listing d c
  simp only [hasWork, Bool.or_eq_false_iff] at h
  have hm := h.1
  rw [Cursor.hasMore, decide_eq_false_iff_not, offset_cursor_listing, image_cursor_listing] at hm
  exact Nat.not_lt.mp hm

end Decoder

end Disassembly
