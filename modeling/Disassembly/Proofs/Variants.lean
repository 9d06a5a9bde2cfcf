import Disassembly.Proofs.Mnemonics

/-! # Documented code on the processors of the 6502 family

The tables of the three processors differ widely, but none of them changes an opcode that the NMOS
processor documents: mnemonic and mode are the same in all of them (`entry_eq_of_documented`). So
every processor reads a documented instruction alike (`decode_eq_of_documented`), goes on at the
same place, and lists the same lines up to the first opcode that is not documented
(`take_listing_of_documented`). -/

namespace Disassembly

namespace Mos6502.Variant

set_option maxRecDepth 2000 in
theorem entry_eq_of_documented (v : Variant) :
    ∀ b, (nmos.entry b).mnemonic ≠ undefinedMnemonic → v.entry b = nmos.entry b := by
  cases v <;> exact forall_byte (by decide)

theorem decode_eq_of_documented (v : Variant) {a : Address} {s : ByteStream}
    (h : (nmos.decode a s).mnemonic ≠ undefinedMnemonic) : v.decode a s = nmos.decode a s := by
  have hentry : v.entry (s 0) = nmos.entry (s 0) := v.entry_eq_of_documented (s 0) h
  unfold decode
  rw [hentry]

end Mos6502.Variant

namespace Decoder

open Mos6502 (Variant)

theorem hasWork_mos6502 (v : Variant) (c : Cursor) : (mos6502 v).hasWork c = c.hasMore :=
  Bool.or_false _

/-- The first `n` lines of the NMOS processor, if all of them are documented, are the first `n`
lines of each processor. -/
theorem take_listing_of_documented (v : Variant) : ∀ (n : Nat) (c : Cursor),
    (∀ i ∈ ((mos6502 .nmos).listing c).instructions.take n, i.mnemonic ≠ undefinedMnemonic) →
      ((mos6502 v).listing c).instructions.take n =
        ((mos6502 .nmos).listing c).instructions.take n
  | 0, _, _ => rfl
  | n + 1, c, hdoc => by
    cases hmore : c.hasMore with
    | false =>
      have hdone : ∀ w : Variant, (mos6502 w).hasWork c = false :=
        fun w => (hasWork_mos6502 w c).trans hmore
      rw [listing_done (hdone v), listing_done (hdone .nmos)]
    | true =>
      have hwork : ∀ w : Variant, (mos6502 w).hasWork c = true :=
        fun w => (hasWork_mos6502 w c).trans hmore
      rw [listing_step (hwork .nmos), Listing.instructions_cons, List.take_succ_cons] at hdoc
      have hline : (mos6502 v).instruction c = (mos6502 .nmos).instruction c :=
        v.decode_eq_of_documented (hdoc _ List.mem_cons_self)
      -- The lines have the same length, so the next ones start at the same place.
      have hadvance : (mos6502 v).advance c = (mos6502 .nmos).advance c := by
        unfold advance
        rw [hline]
        rfl
      have hrest := take_listing_of_documented v n ((mos6502 .nmos).advance c)
        fun i hi => hdoc i (List.mem_cons_of_mem _ hi)
      rw [listing_step (hwork v), listing_step (hwork .nmos), Listing.instructions_cons,
        Listing.instructions_cons, List.take_succ_cons, List.take_succ_cons, hline, hadvance]
      exact congrArg (List.cons _) hrest

end Decoder

/-- **The processors of the 6502 family agree on documented code.** The lines of the NMOS processor
before its first undefined opcode, or all its lines if there is none, are the first lines of the
NMOS processor with all its opcodes and of the CMOS processor. -/
theorem documented_lines_agree (m : Image) :
    let nmos := (Architecture.mos6502.listing m).instructions
    let k := nmos.findIdx fun i => i.mnemonic = undefinedMnemonic
    (Architecture.undocumented6502.listing m).instructions.take k = nmos.take k ∧
      (Architecture.cmos65C02.listing m).instructions.take k = nmos.take k := by
  intro nmos k
  have hdoc : ∀ i ∈ nmos.take k, i.mnemonic ≠ undefinedMnemonic := by
    intro i hi
    obtain ⟨j, hj, rfl⟩ := List.getElem_of_mem hi
    have hjk : j < k := by
      rw [List.length_take] at hj
      omega
    have hnot := List.not_of_lt_findIdx hjk
    rw [List.getElem_take]
    simpa using hnot
  exact ⟨Decoder.take_listing_of_documented .undocumented k { image := m } hdoc,
    Decoder.take_listing_of_documented .cmos k { image := m } hdoc⟩

end Disassembly
