import Disassembly.Proofs.Mnemonics
import Mathlib.Tactic.Set

/-! # Segments of code that switches

The listing of 6502 code with calls into SWEET16 is put together from listings of the two plain
instruction sets. A segment is what the plain decoder lists from an offset on, up to and including
the first trigger, which is a call of the interpreter or its return; behind the trigger stands the
directive that names the other instruction set, and from there on the segments of the other one
follow. The last segment has no trigger and goes on to the end of the image.

`Segments` says so by induction, with the events and the instruction set in the end. It is closed
under putting an instruction in front (`Segments.cons`, `Segments.trigger`), which is what one step
of the decoder does (`listing_of_not_trigger`, `listing_of_trigger`). -/

namespace Disassembly

/-! ### Plain listings and triggers -/

namespace Dialect

/-- The decoder of the instruction set by itself. -/
def decoder : Dialect → Decoder
  | mos6502 => .mos6502 .nmos
  | sweet16 => .sweet16

/-- What the instruction set by itself lists from an offset on. -/
def lines (dialect : Dialect) (m : Image) (o : Nat) : List Instruction :=
  (dialect.decoder.listing { image := m, offset := o }).instructions

/-- An instruction behind which the other instruction set starts: a call of the interpreter at
`$F689`, or the return from it. -/
def Trigger : Dialect → Instruction → Prop
  | mos6502, i => i.mnemonic = "JSR" ∧ i.target = some 0xF689
  | sweet16, i => i.mnemonic = "RTN"

/-- The mnemonic of the directive that names the instruction set. -/
def directiveName : Dialect → String
  | mos6502 => ".6502"
  | sweet16 => ".SWEET16"

/-- The directive behind an instruction. -/
def directiveBehind (dialect : Dialect) (t : Instruction) : Instruction :=
  { address := t.address + UInt16.ofNat t.code.length
    code := []
    mnemonic := dialect.directiveName
    operands := [] }

theorem isTrigger_iff (dialect : Dialect) (i : Instruction) :
    Switching.isTrigger dialect i = true ↔ dialect.Trigger i := by
  cases dialect with
  | mos6502 => simp [Switching.isTrigger, Trigger, Switching.entryPoint]
  | sweet16 => simp [Switching.isTrigger, Trigger]

theorem directive_addressBehind (dialect : Dialect) (t : Instruction) :
    dialect.directive (Switching.addressBehind t) = dialect.directiveBehind t := by
  cases dialect <;> rfl

/-- The instruction at an offset. -/
def lineAt (dialect : Dialect) (m : Image) (o : Nat) : Instruction :=
  dialect.decode (m.addressAt o) (m.stream.drop o)

theorem instruction_decoder (dialect : Dialect) (c : Cursor) :
    dialect.decoder.instruction c = dialect.decode c.address c.ahead := by
  cases dialect <;> rfl

theorem length_code_lineAt_pos (dialect : Dialect) (m : Image) (o : Nat) :
    0 < (dialect.lineAt m o).code.length := by
  have h := Decoder.length_code_instruction_pos (d := dialect.decoder) (by cases dialect <;> rfl)
    { image := m, offset := o }
  rwa [instruction_decoder] at h

theorem lines_of_lt (dialect : Dialect) {m : Image} {o : Nat} (h : o < m.size) :
    dialect.lines m o =
      dialect.lineAt m o :: dialect.lines m (o + (dialect.lineAt m o).code.length) := by
  have hw : dialect.decoder.hasWork { image := m, offset := o } = true := by
    simp [Decoder.hasWork, Cursor.hasMore, h]
  unfold lines
  rw [Decoder.listing_step hw, Listing.instructions_cons]
  cases dialect <;> rfl

theorem lines_of_le (dialect : Dialect) {m : Image} {o : Nat} (h : m.size ≤ o) :
    dialect.lines m o = [] := by
  have hw : dialect.decoder.hasWork { image := m, offset := o } = false := by
    cases dialect <;> simp [Decoder.hasWork, Cursor.hasMore, decoder, Decoder.owes, h]
  unfold lines
  rw [Decoder.listing_done hw]

end Dialect

/-- Whether an instruction has the mnemonic of a directive. -/
def Instruction.isDirective (i : Instruction) : Bool :=
  i.mnemonic == ".SWEET16" || i.mnemonic == ".6502"

/-- A plain listing has code in every line and no directives. -/
theorem Dialect.code_ne_nil_of_mem_lines {dialect : Dialect} {m : Image} {o : Nat} :
    ∀ i ∈ dialect.lines m o, i.code ≠ [] ∧ i.isDirective = false := by
  refine Decoder.forall_mem_listing (Q := fun d _ => ∃ dialect : Dialect, d = dialect.decoder) ?_
    ⟨dialect, rfl⟩
  rintro d c - ⟨dialect, rfl⟩
  refine ⟨⟨?_, ?_⟩, dialect, ?_⟩
  · intro h
    have := Decoder.owes_eq_true_of_code_eq_nil h
    cases dialect <;> cases this
  · have h := dialect.mnemonic_decode_notMem c.address c.ahead
    rw [dialect.instruction_decoder]
    simp only [reservedMnemonics, List.mem_cons, not_or] at h
    simp [Instruction.isDirective, h]
  · cases dialect <;> rfl

theorem Dialect.not_directive_of_mem_lines {dialect : Dialect} {m : Image} {o : Nat}
    {i : Instruction} (hi : i ∈ dialect.lines m o) : ¬ (i.isDirective = true ∨ i.code = []) := by
  obtain ⟨hcode, hname⟩ := code_ne_nil_of_mem_lines i hi
  rintro (h | h)
  · rw [hname] at h; cases h
  · exact hcode h

/-! ### Segments -/

/-- The instructions and events of an image from an offset on, put together from segments of plain
listings, with the instruction set of the first one and of the last one. The last segment has no
trigger; every other one goes up to its first trigger, and the directive follows. -/
inductive Segments (m : Image) : Dialect → Nat → List Instruction → List Event → Dialect → Prop
  | last {dialect : Dialect} {o : Nat} (h : ∀ i ∈ dialect.lines m o, ¬ dialect.Trigger i) :
      Segments m dialect o (dialect.lines m o) [] dialect
  | switch {dialect final : Dialect} {o : Nat} {body rest is : List Instruction} {t : Instruction}
      {es : List Event} (hl : dialect.lines m o = body ++ t :: rest)
      (hb : ∀ i ∈ body, ¬ dialect.Trigger i) (ht : dialect.Trigger t)
      (h : Segments m dialect.other (o + (bytesOf (body ++ [t])).length) is es final) :
      Segments m dialect o (body ++ t :: dialect.other.directiveBehind t :: is)
        (.switched dialect.other (dialect.other.directiveBehind t).address :: es) final

namespace Segments

variable {m : Image} {dialect final : Dialect} {o : Nat} {is : List Instruction} {es : List Event}

theorem nil (h : m.size ≤ o) : Segments m dialect o [] [] dialect := by
  have hl := dialect.lines_of_le h
  have hs : Segments m dialect o (dialect.lines m o) [] dialect := .last (by rw [hl]; simp)
  rwa [hl] at hs

/-- An instruction in front that is no trigger belongs to the first segment. -/
theorem cons (ho : o < m.size) (hi : ¬ dialect.Trigger (dialect.lineAt m o))
    (h : Segments m dialect (o + (dialect.lineAt m o).code.length) is es final) :
    Segments m dialect o (dialect.lineAt m o :: is) es final := by
  have hl := dialect.lines_of_lt ho
  cases h with
  | last h =>
    rw [← hl]
    refine .last fun i hm => ?_
    rw [hl] at hm
    rcases List.mem_cons.mp hm with rfl | hm
    · exact hi
    · exact h i hm
  | @switch _ _ _ body rest is t es hl' hb ht h =>
    rw [hl', ← List.cons_append] at hl
    refine .switch hl (fun i hm => ?_) ht ?_
    · rcases List.mem_cons.mp hm with rfl | hm
      · exact hi
      · exact hb i hm
    · rw [List.cons_append, bytesOf_cons, List.length_append, ← Nat.add_assoc]
      exact h

theorem trigger (ho : o < m.size) (hi : dialect.Trigger (dialect.lineAt m o))
    (h : Segments m dialect.other (o + (dialect.lineAt m o).code.length) is es final) :
    Segments m dialect o
      (dialect.lineAt m o :: dialect.other.directiveBehind (dialect.lineAt m o) :: is)
      (.switched dialect.other (dialect.other.directiveBehind (dialect.lineAt m o)).address :: es)
      final := by
  have hl := dialect.lines_of_lt ho
  rw [← List.nil_append (_ :: _)] at hl
  refine .switch hl (by simp) hi ?_
  simpa using h

end Segments

/-! ### The decoder that switches -/

namespace Switching

variable {m : Image} {dialect : Dialect} {o : Nat}

theorem hasWork_of_lt (w : Switching) (h : o < m.size) :
    (Decoder.switching w).hasWork { image := m, offset := o } = true := by
  simp [Decoder.hasWork, Cursor.hasMore, h]

theorem listing_of_le (h : m.size ≤ o) :
    (Decoder.switching ⟨dialect, none⟩).listing { image := m, offset := o } =
      { instructions := [], events := [], decoder := .switching ⟨dialect, none⟩,
        cursor := { image := m, offset := o } } :=
  Decoder.listing_done (by simp [Decoder.hasWork, Cursor.hasMore, Decoder.owes, h])

theorem listing_of_not_trigger (h : o < m.size) (ht : ¬ dialect.Trigger (dialect.lineAt m o)) :
    (Decoder.switching ⟨dialect, none⟩).listing { image := m, offset := o } =
      ((Decoder.switching ⟨dialect, none⟩).listing
        { image := m, offset := o + (dialect.lineAt m o).code.length }).cons
        (dialect.lineAt m o) [] := by
  have hb : (Switching.mk dialect none).next (m.addressAt o) (m.stream.drop o) = ⟨dialect, none⟩ :=
    if_neg (by rwa [dialect.isTrigger_iff])
  have hn : (Decoder.switching ⟨dialect, none⟩).next { image := m, offset := o } =
      .switching ⟨dialect, none⟩ := congrArg Decoder.switching hb
  have he : (Decoder.switching ⟨dialect, none⟩).events { image := m, offset := o } = [] := by
    show events _ (m.addressAt o) (m.stream.drop o) = []
    simp only [events, hb]
  rw [Decoder.listing_step (hasWork_of_lt _ h), hn, he]
  rfl

/-- The two steps over a trigger and its directive. -/
theorem listing_of_trigger (h : o < m.size) (ht : dialect.Trigger (dialect.lineAt m o)) :
    (Decoder.switching ⟨dialect, none⟩).listing { image := m, offset := o } =
      (((Decoder.switching ⟨dialect.other, none⟩).listing
        { image := m, offset := o + (dialect.lineAt m o).code.length }).cons
        (dialect.other.directiveBehind (dialect.lineAt m o)) []).cons
        (dialect.lineAt m o)
        [.switched dialect.other
          (dialect.other.directiveBehind (dialect.lineAt m o)).address] := by
  set a := addressBehind (dialect.lineAt m o) with ha
  have hb : (Switching.mk dialect none).next (m.addressAt o) (m.stream.drop o) =
      ⟨dialect.other, some a⟩ := if_pos ((dialect.isTrigger_iff _).mpr ht)
  have hn : (Decoder.switching ⟨dialect, none⟩).next { image := m, offset := o } =
      .switching ⟨dialect.other, some a⟩ := congrArg Decoder.switching hb
  have he : (Decoder.switching ⟨dialect, none⟩).events { image := m, offset := o } =
      [.switched dialect.other a] := by
    show events _ (m.addressAt o) (m.stream.drop o) = _
    simp only [events, hb]
  have hdir : dialect.other.directive a = dialect.other.directiveBehind (dialect.lineAt m o) :=
    dialect.other.directive_addressBehind _
  -- The second step pays the directive and leaves the cursor where it is.
  have hpay : ∀ c : Cursor, (Decoder.switching ⟨dialect.other, some a⟩).listing c =
      ((Decoder.switching ⟨dialect.other, none⟩).listing (c.withMark c.mark)).cons
        (dialect.other.directive a) [] := by
    intro c
    have hlen : ((Decoder.switching ⟨dialect.other, some a⟩).instruction c).code.length = 0 := by
      rw [Decoder.code_eq_nil_of_owes rfl]
      rfl
    rw [Decoder.listing_step (by simp [Decoder.hasWork, Decoder.owes]), Decoder.advance, hlen]
    rfl
  rw [Decoder.listing_step (hasWork_of_lt _ h), hn, he, hpay, hdir]
  rfl

/-- **The listing is put together from segments**, and no directive is owed in the end. -/
theorem segments_listing (m : Image) (dialect : Dialect) (o : Nat) :
    ∃ final, ((Decoder.switching ⟨dialect, none⟩).listing { image := m, offset := o }).decoder =
        .switching ⟨final, none⟩ ∧
      Segments m dialect o
        ((Decoder.switching ⟨dialect, none⟩).listing { image := m, offset := o }).instructions
        ((Decoder.switching ⟨dialect, none⟩).listing { image := m, offset := o }).events final := by
  -- Each step with code comes closer to the end of the image.
  induction hn : m.size - o using Nat.strongRecOn generalizing dialect o with
  | ind n ih =>
    rcases Nat.lt_or_ge o m.size with ho | ho
    · have hpos := dialect.length_code_lineAt_pos m o
      have hlt : m.size - (o + (dialect.lineAt m o).code.length) < n := by omega
      by_cases ht : dialect.Trigger (dialect.lineAt m o)
      · obtain ⟨final, hd, hs⟩ := ih _ hlt dialect.other _ rfl
        rw [listing_of_trigger ho ht]
        exact ⟨final, hd, hs.trigger ho ht⟩
      · obtain ⟨final, hd, hs⟩ := ih _ hlt dialect _ rfl
        rw [listing_of_not_trigger ho ht]
        exact ⟨final, hd, hs.cons ho ht⟩
    · rw [listing_of_le ho]
      exact ⟨dialect, rfl, .nil ho⟩

end Switching

/-! ### What segments say -/

namespace Segments

variable {m : Image} {dialect final : Dialect} {o : Nat} {is : List Instruction} {es : List Event}

/-- The event that a directive comes with. -/
def recordOf (i : Instruction) : Event :=
  .switched (if i.mnemonic = ".SWEET16" then .sweet16 else .mos6502) i.address

theorem subset_lines {body rest : List Instruction} {t : Instruction}
    (hl : dialect.lines m o = body ++ t :: rest) : body ++ [t] ⊆ dialect.lines m o := by
  rw [hl, List.append_cons body t rest]
  exact List.subset_append_left _ _

theorem filter_lines {l : List Instruction} (h : l ⊆ dialect.lines m o) :
    l.filter Instruction.isDirective = [] := by
  refine List.filter_eq_nil_iff.mpr fun i hi => ?_
  rw [(Dialect.code_ne_nil_of_mem_lines i (h hi)).2]
  decide

theorem isDirective_directiveBehind (dialect : Dialect) (t : Instruction) :
    (dialect.directiveBehind t).isDirective = true := by
  cases dialect <;> rfl

theorem recordOf_directiveBehind (dialect : Dialect) (t : Instruction) :
    recordOf (dialect.directiveBehind t) =
      .switched dialect (dialect.directiveBehind t).address := by
  cases dialect <;> rfl

theorem filter_switch {body rest : List Instruction} {t : Instruction}
    (hl : dialect.lines m o = body ++ t :: rest) (other : Dialect) :
    (body ++ t :: other.directiveBehind t :: is).filter Instruction.isDirective =
      other.directiveBehind t :: is.filter Instruction.isDirective := by
  rw [List.append_cons, List.filter_append, filter_lines (subset_lines hl), List.nil_append,
    List.filter_cons_of_pos (isDirective_directiveBehind _ _)]

theorem events_eq (h : Segments m dialect o is es final) :
    es = (is.filter Instruction.isDirective).map recordOf := by
  induction h with
  | last h => rw [filter_lines (List.Subset.refl _)]; rfl
  | switch hl hb ht h ih =>
    rw [filter_switch hl, List.map_cons, recordOf_directiveBehind, ← ih]

/-- The number of directives with a mnemonic. -/
def directives (name : String) (is : List Instruction) : Nat := is.countP fun i => i.mnemonic = name

theorem directives_eq {name : String} (hn : name = ".SWEET16" ∨ name = ".6502")
    (is : List Instruction) :
    directives name is = (is.filter Instruction.isDirective).countP fun i => i.mnemonic = name := by
  unfold directives
  rw [List.countP_filter]
  refine List.countP_congr fun i _ => ?_
  rcases hn with rfl | rfl <;> simp +contextual [Instruction.isDirective]

/-- The directives for the two instruction sets take turns, so that their numbers differ by the
first and the last one. -/
theorem directives_add (h : Segments m dialect o is es final) :
    directives ".SWEET16" is + (if dialect = .sweet16 then 1 else 0) =
      directives ".6502" is + (if final = .sweet16 then 1 else 0) := by
  rw [directives_eq (Or.inl rfl), directives_eq (Or.inr rfl)]
  induction h with
  | last h => rw [filter_lines (List.Subset.refl _)]; rfl
  | @switch dialect _ _ _ _ _ _ _ hl hb ht h ih =>
    rw [filter_switch hl, List.countP_cons, List.countP_cons]
    cases dialect with
    | mos6502 | sweet16 =>
      simp [Dialect.other, Dialect.directiveBehind, Dialect.directiveName] at ih ⊢
      omega

theorem exists_trigger (h : Segments m dialect o is es final) : ∀ n i, is[n]? = some i →
    (i.isDirective = true ∨ i.code = []) → ∃ k t d, n = k + 1 ∧ is[k]? = some t ∧
      Dialect.Trigger d t ∧ i = d.other.directiveBehind t := by
  induction h with
  | @last dialect o h =>
    intro n i hi hd
    exact absurd hd (Dialect.not_directive_of_mem_lines (List.mem_of_getElem? hi))
  | @switch dialect final o body rest is t es hl hb ht h ih =>
    intro n i hi hd
    have hlast : (body ++ [t])[body.length]? = some t := List.getElem?_concat_length
    rw [List.append_cons] at hi ⊢
    rcases Nat.lt_or_ge n (body ++ [t]).length with hn | hn
    · rw [List.getElem?_append_left hn] at hi
      have hmem : i ∈ dialect.lines m o := subset_lines hl (List.mem_of_getElem? hi)
      exact absurd hd (Dialect.not_directive_of_mem_lines hmem)
    · obtain ⟨q, rfl⟩ := Nat.exists_eq_add_of_le hn
      rw [List.getElem?_append_right hn, Nat.add_sub_cancel_left] at hi
      cases q with
      | zero =>
        obtain rfl := Option.some.inj hi
        refine ⟨body.length, t, dialect, by simp, ?_, ht, rfl⟩
        rw [List.getElem?_append_left (by simp), hlast]
      | succ q =>
        rw [List.getElem?_cons_succ] at hi
        obtain ⟨k, u, d, rfl, hu, hd⟩ := ih q i hi hd
        refine ⟨(body ++ [t]).length + (k + 1), u, d, by omega, ?_, hd⟩
        rw [List.getElem?_append_right (Nat.le_add_right _ _), Nat.add_sub_cancel_left,
          List.getElem?_cons_succ, hu]

theorem eq_lines_iff (h : Segments m dialect o is es final) :
    is = dialect.lines m o ↔ ∀ i ∈ dialect.lines m o, ¬ dialect.Trigger i := by
  cases h with
  | last h => exact ⟨fun _ => h, fun _ => rfl⟩
  | @switch _ _ _ body rest is t es hl hb ht h =>
    constructor
    · intro heq
      have hmem : dialect.other.directiveBehind t ∈ dialect.lines m o := by
        rw [← heq]
        simp
      exact absurd (Or.inr rfl) (Dialect.not_directive_of_mem_lines hmem)
    · intro hno
      exact absurd ht (hno t (by rw [hl]; simp))

end Segments

/-! ### Listings of images -/

/-- **The listing of code that switches is put together from plain listings.** It starts with a
segment of the 6502; every directive stands right behind a trigger, with the address there; the
events are one for each directive, in the same order and with the same address; the decoder ends in
SWEET16 exactly if the directives for SWEET16 are more than those for the 6502, and then by one; and
the listing is that of the plain 6502 exactly if that has no trigger. -/
theorem switching_listing_segments (m : Image) :
    let l := Architecture.switching6502.listing m
    let plain := (Architecture.mos6502.listing m).instructions
    ∃ final, Segments m .mos6502 0 l.instructions l.events final ∧
      l.decoder = .switching { dialect := final, pending := none } ∧
      (∀ n i, l.instructions[n]? = some i → (i.isDirective = true ∨ i.code = []) →
        ∃ k t dialect, n = k + 1 ∧ l.instructions[k]? = some t ∧ Dialect.Trigger dialect t ∧
          i = dialect.other.directiveBehind t) ∧
      l.events = (l.instructions.filter Instruction.isDirective).map (fun i =>
        .switched (if i.mnemonic = ".SWEET16" then .sweet16 else .mos6502) i.address) ∧
      (final = .sweet16 ↔ l.instructions.countP (·.mnemonic = ".6502") <
        l.instructions.countP (·.mnemonic = ".SWEET16")) ∧
      l.instructions.countP (·.mnemonic = ".SWEET16") =
        l.instructions.countP (·.mnemonic = ".6502") + (if final = .sweet16 then 1 else 0) ∧
      (l.instructions = plain ↔ ∀ i ∈ plain, ¬ Dialect.mos6502.Trigger i) := by
  intro l plain
  obtain ⟨final, hd, hs⟩ := Switching.segments_listing m .mos6502 0
  have hcount : Segments.directives ".SWEET16" l.instructions =
      Segments.directives ".6502" l.instructions + (if final = .sweet16 then 1 else 0) :=
    hs.directives_add
  refine ⟨final, hs, hd, hs.exists_trigger, hs.events_eq, ?_, hcount, hs.eq_lines_iff⟩
  show final = .sweet16 ↔ Segments.directives ".6502" l.instructions <
    Segments.directives ".SWEET16" l.instructions
  rw [hcount]
  by_cases hf : final = .sweet16
  · rw [if_pos hf]
    exact ⟨fun _ => Nat.lt_succ_self _, fun _ => hf⟩
  · rw [if_neg hf]
    exact ⟨fun h => absurd h hf, fun h => absurd h (Nat.lt_irrefl _)⟩

/-- A call of the interpreter in the last three bytes, with its directive at address zero. -/
theorem switching_listing_segments_last_call :
    let l := Architecture.switching6502.listing { base := 0xFFFD, bytes := #[0x20, 0x89, 0xF6] }
    let directive : Instruction := { address := 0x0000, mnemonic := ".SWEET16" }
    l.instructions[1]? = some directive ∧ ∃ k t dialect, 1 = k + 1 ∧
      l.instructions[k]? = some t ∧ Dialect.Trigger dialect t ∧
      directive = dialect.other.directiveBehind t := by
  intro l directive
  have hline : l.instructions[1]? = some directive := by decide +kernel
  obtain ⟨_, -, -, hdir, -⟩ :=
    switching_listing_segments { base := 0xFFFD, bytes := #[0x20, 0x89, 0xF6] }
  exact ⟨hline, hdir 1 directive hline (Or.inr rfl)⟩

end Disassembly
