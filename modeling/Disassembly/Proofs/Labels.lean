import Mathlib
import Disassembly.Proofs.Lossless

/-! # The names that a run gives

A run takes names from its library and gives a name of its own to every other address that a line
refers to, if the address lies in the window. Names are recorded one by one, and the first name
recorded for an address stays; what comes out depends on no order all the same, since all the names
that compete for an address behind those of the library are equal.

* `LabelMap.get?_recordAll`: what recording a list of names does, address by address;
* `LabelMap.toList_eq_of_get?_eq`: a map is determined by the names it gives;
* `LabelMap.named_resolve`: what names a listing is given (`LabelMap.Named`). -/

namespace Disassembly

namespace LabelMap

/-- Maps that give the same names are listed alike. -/
theorem toList_eq_of_get?_eq {m m' : LabelMap} (h : ∀ a, m.get? a = m'.get? a) :
    m.toList = m'.toList :=
  (Std.TreeMap.Equiv.of_forall_constGet?_eq h).toList_eq

/-- The first name recorded for an address stays. -/
theorem get?_recordAll (a : Address) : ∀ (names : List (Address × String)) (m : LabelMap),
    (m.recordAll names).get? a = (m.get? a).or (names.lookup a)
  | [], m => by
    show m.get? a = (m.get? a).or none
    rw [Option.or_none]
  | (b, name) :: names, m => by
    show ((m.record b name).recordAll names).get? a = _
    rw [get?_recordAll a names, get?_record]
    by_cases hb : b = a
    · subst hb
      cases hm : m.get? b <;> simp
    · have hab : (a == b) = false := beq_eq_false_iff_ne.mpr (Ne.symm hb)
      simp [hb, List.lookup_cons, hab]

/-! ### Names for a listing -/

/-- What it means that a map names the addresses that a listing refers to: an address has its name
in `seed`, and without one the letter `L` and four digits, if it is the first address that some
instruction refers to and lies within `length` bytes from `base` on, where the address space
wraps. -/
def Named (is : List Instruction) (base : Address) (length : Nat) (seed m : LabelMap) : Prop :=
  ∀ a name, m.get? a = some name ↔
    seed.get? a = some name ∨
    seed.get? a = none ∧ name = "L" ++ Hex.word a ∧
      (∃ i ∈ is, i.operands.findSome? Operand.address = some a) ∧
      ((a.toNat : Int) - base.toNat) % 65536 < length

variable {is js : List Instruction} {base : Address} {length : Nat} {seed m m' : LabelMap}

theorem inWindow_iff {a : Address} :
    inWindow base length a = true ↔ ((a.toNat : Int) - base.toNat) % 65536 < length := by
  have ha := a.toNat_lt
  have hb := base.toNat_lt
  unfold inWindow
  rw [decide_eq_true_eq, UInt16.toNat_sub]
  omega

theorem mem_referenced {a : Address} : a ∈ referenced is base length ↔
    (∃ i ∈ is, i.target = some a) ∧ ((a.toNat : Int) - base.toNat) % 65536 < length := by
  unfold referenced
  rw [List.mem_filter, List.mem_filterMap, inWindow_iff]

theorem lookup_autoNames (a : Address) : ∀ as : List Address,
    (as.map fun b => (b, b.autoName)).lookup a = if a ∈ as then some a.autoName else none
  | [] => rfl
  | b :: as => by
    rw [List.map_cons, List.lookup_cons, lookup_autoNames a as]
    by_cases hb : a = b
    · subst hb
      simp
    · have hab : (a == b) = false := beq_eq_false_iff_ne.mpr hb
      simp [hab, hb]

theorem named_resolve (is : List Instruction) (base : Address) (length : Nat) (seed : LabelMap) :
    Named is base length seed (resolve is base length seed) := by
  intro a name
  unfold resolve
  rw [get?_recordAll, lookup_autoNames]
  cases hseed : seed.get? a with
  | some n => simp
  | none =>
    have hwhy : a ∈ referenced is base length ↔
        (∃ i ∈ is, i.operands.findSome? Operand.address = some a) ∧
          ((a.toNat : Int) - base.toNat) % 65536 < length := mem_referenced
    rw [Option.none_or, ← hwhy]
    by_cases ha : a ∈ referenced is base length
    · rw [if_pos ha]
      constructor
      · intro h
        exact Or.inr ⟨rfl, (Option.some.inj h).symm, ha⟩
      · rintro (h | ⟨-, rfl, -⟩)
        · cases h
        · rfl
    · rw [if_neg ha]
      constructor
      · intro h
        cases h
      · rintro (h | ⟨-, -, h⟩)
        · cases h
        · exact absurd h ha

/-- The names depend on which instructions there are, not on their order or number. -/
theorem Named.get?_eq (hm : Named is base length seed m) (hm' : Named js base length seed m')
    (hmem : ∀ i, i ∈ is ↔ i ∈ js) (a : Address) : m.get? a = m'.get? a := by
  refine Option.ext fun name => ?_
  rw [hm a name, hm' a name]
  simp only [hmem]

/-- An address that has a name already keeps it, and one that is to have a name has it. -/
theorem Named.get?_again (hm : Named is base length seed m) (hm' : Named is base length m m')
    (a : Address) : m'.get? a = m.get? a := by
  refine Option.ext fun name => ?_
  rw [hm' a name]
  constructor
  · rintro (h | ⟨hnone, -, hwhy⟩)
    · exact h
    -- No name in `m` means that the seed has none either; then the same reason gave one to `m`.
    · cases hseed : seed.get? a with
      | some n => rw [(hm a n).mpr (Or.inl hseed)] at hnone; cases hnone
      | none => rw [(hm a _).mpr (Or.inr ⟨hseed, rfl, hwhy⟩)] at hnone; cases hnone
  · exact Or.inl

theorem autoName_inj {a b : Address} (h : "L" ++ Hex.word a = "L" ++ Hex.word b) : a = b := by
  have hlist := congrArg String.toList h
  rw [String.toList_append, String.toList_append, Hex.toList_word, Hex.toList_word] at hlist
  exact Hex.wordDigits_inj (List.append_cancel_left hlist)

end LabelMap

theorem Settings.named_report (s : Settings) (bytes : Array UInt8) (seed : LabelMap) :
    LabelMap.Named (s.report bytes seed).instructions s.startAddress (s.windowEnd bytes.size) seed
      (s.report bytes seed).labels := by
  rw [← s.size_image]
  exact LabelMap.named_resolve _ _ _ _

/-- **The names of a run.** The map that a listing is given has the names of `seed`, and a name of
its own for each other address in the window that an instruction refers to. So it does not depend on
the order or the number of the instructions, a second time adds nothing, and two of its own names
are equal only for equal addresses. In a run the window goes from the first byte, passed over or
not, to the end of the window: no name of the library is replaced, and no address outside gets a
name that the library does not give. -/
theorem run_labels :
    (∀ is base length seed,
      LabelMap.Named is base length seed (LabelMap.resolve is base length seed)) ∧
    (∀ is js base length seed, (∀ i, i ∈ is ↔ i ∈ js) →
      (LabelMap.resolve is base length seed).toList =
        (LabelMap.resolve js base length seed).toList) ∧
    (∀ is base length seed,
      (LabelMap.resolve is base length (LabelMap.resolve is base length seed)).toList =
        (LabelMap.resolve is base length seed).toList) ∧
    (∀ a b : Address, "L" ++ Hex.word a = "L" ++ Hex.word b → a = b) ∧
    ∀ (s : Settings) (bytes : Array UInt8) (r : Report), s.run bytes = .ok r →
      let stop := if s.limit = 0 then bytes.size else min (s.skip + s.limit) bytes.size
      ∃ seed, s.library.seed s.labelGroups = .ok seed ∧
        LabelMap.Named r.instructions s.startAddress stop seed r.labels ∧
        (∀ a name, seed.get? a = some name → r.labelAt a = some name) ∧
        ∀ a, (stop : Int) ≤ ((a.toNat : Int) - s.startAddress.toNat) % 65536 →
          r.labelAt a = seed.get? a := by
  refine ⟨LabelMap.named_resolve, ?_, ?_, fun _ _ => LabelMap.autoName_inj, ?_⟩
  · intro is js base length seed hmem
    exact LabelMap.toList_eq_of_get?_eq
      ((LabelMap.named_resolve is base length seed).get?_eq
        (LabelMap.named_resolve js base length seed) hmem)
  · intro is base length seed
    exact LabelMap.toList_eq_of_get?_eq
      ((LabelMap.named_resolve is base length seed).get?_again
        (LabelMap.named_resolve is base length _))
  · intro s bytes r hr stop
    obtain ⟨-, seed, hseed, rfl⟩ := Settings.run_eq_ok_iff.mp hr
    have hnamed := s.named_report bytes seed
    refine ⟨seed, hseed, hnamed, fun a name h => (hnamed a name).mpr (Or.inl h), fun a ha => ?_⟩
    refine Option.ext fun name => (hnamed a name).trans ⟨?_, Or.inl⟩
    rintro (h | ⟨-, -, -, hin⟩)
    · exact h
    · exact absurd hin (Int.not_lt.mpr ha)

/-- A window of four bytes that wraps, with a name from the library for its first address, a jump to
its last address, and the address right behind it. -/
theorem run_labels_wrapping :
    let s : Settings :=
      { architecture := .mos6502, start := some 0xFFFE, limit := 4,
        library := LabelLibrary.empty.insert "ROM" "START" 0xFFFE, groups := some ["ROM"] }
    let bytes := #[0x4C, 0x01, 0x00, 0x4C, 0xFE, 0xFF]
    ∃ r, s.run bytes = .ok r ∧ r.labelAt 0xFFFE = some "START" ∧ r.labelAt 0x0001 = some "L0001" ∧
      r.labelAt 0x0002 = none ∧
      (LabelMap.resolve (r.instructions ++ r.instructions) 0xFFFE 4 .empty).toList =
        (LabelMap.resolve r.instructions 0xFFFE 4 .empty).toList ∧
      ("L" ++ Hex.word 0x0001 = "L" ++ Hex.word (0xFFFE + 3) → (0x0001 : Address) = 0xFFFE + 3) := by
  intro s bytes
  obtain ⟨-, hsame, -, hinj, hrun⟩ := run_labels
  have hlines : (s.run bytes).map (fun r => r.instructions.map Instruction.target) =
      .ok [some 0x0001, some 0x0000] := by cbv
  have hnames : (s.library.seed s.labelGroups).map
      (fun m => (m.get? 0xFFFE, m.get? 0x0001, m.get? 0x0002)) =
        .ok (some "START", none, none) := by cbv
  obtain ⟨r, hr⟩ : ∃ r, s.run bytes = .ok r := by
    cases h : s.run bytes with
    | ok r => exact ⟨r, rfl⟩
    | error e => rw [h] at hlines; cases hlines
  obtain ⟨seed, hseed, hnamed, hkept, hout⟩ := hrun s bytes r hr
  rw [hr] at hlines
  rw [hseed] at hnames
  have htargets : r.instructions.map Instruction.target = [some 0x0001, some 0x0000] :=
    Except.ok.inj hlines
  obtain ⟨hfirst, hrest⟩ := Prod.mk.inj (Except.ok.inj hnames)
  obtain ⟨hlast, hbehind⟩ := Prod.mk.inj hrest
  obtain ⟨i, hi, htarget⟩ : ∃ i ∈ r.instructions, i.target = some 0x0001 :=
    List.mem_map.mp (htargets ▸ List.mem_cons_self)
  refine ⟨r, hr, hkept _ _ hfirst, ?_, ?_, ?_, hinj _ _⟩
  · exact (hnamed 0x0001 "L0001").mpr
      (Or.inr ⟨hlast, by decide, ⟨i, hi, htarget⟩, by decide⟩)
  · exact (hout 0x0002 (by decide)).trans hbehind
  · exact hsame _ _ _ _ _ fun i => by rw [List.mem_append, or_self]

end Disassembly
