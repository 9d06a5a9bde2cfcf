import Disassembly.Proofs.Mnemonics

/-! # The jump table of p-code

Where the code of a procedure ends and its jump table starts is found out while the code is read:
the mark of the cursor is the most negative distance of a jump so far, and from the offset
`size + mark + 8` on there are only words of the table, listed as `J/T`.

* `jumpByte?`: the distance byte of a jump, as the line of the jump shows it;
* `read_mark`: what one step does to the mark, and what it reports;
* `cursorAt`, `lineAt`: the run of any number of steps, inside the image or behind it. The mark only
  falls (`mark_cursorAt_le`), so a step in the table is followed by steps in the table only
  (`inTable_cursorAt`). -/

namespace Disassembly.PCode

/-! ### Jumps as they are listed -/

/-- The mnemonics of jumps whose opcode has the distance behind it. -/
def jumpMnemonics : List String := ["FJP", "UJP", "EFJ", "NFJ"]

/-- The distance byte in the code of a listed jump. In a case jump it belongs to the jump past the
table, and comes behind the opcode, a filler up to an even address, the two bounds and one more
opcode. -/
def jumpByte? (i : Instruction) : Option UInt8 :=
  if i.mnemonic ∈ jumpMnemonics then i.code[1]?
  else if i.mnemonic = "XJP" then i.code[if i.address.toNat % 2 = 0 then 7 else 6]?
  else none

/-- Parameters that are jumps. -/
def Param.jumps : Param → Bool
  | .jump | .caseJump => true
  | _ => false

/-- The parameters of an opcode and the mnemonics that it can have tell alike whether it is a jump.
-/
theorem params_entry_jump : ∀ b,
    ((entry b).params = [.jump] ∧ ∀ name ∈ (entry b).mnemonics, name ∈ jumpMnemonics) ∨
    ((entry b).params = [.caseJump] ∧ ∀ name ∈ (entry b).mnemonics, name = "XJP") ∨
    ((∀ p ∈ (entry b).params, p.jumps = false) ∧
      ∀ name ∈ (entry b).mnemonics, name ∉ jumpMnemonics ∧ name ≠ "XJP") :=
  forall_byte (by decide +kernel)

/-! ### One step -/

/-- The events that say where the table starts. -/
def traceOf (es : List Event) : List Event := es.filter fun e => e.level = .trace

@[simp] theorem traceOf_append (es fs : List Event) :
    traceOf (es ++ fs) = traceOf es ++ traceOf fs := List.filter_append ..

theorem traceOf_jumpEvents (m : Image) (mark distance : Int) :
    traceOf (jumpEvents m mark distance) = jumpEvents m mark distance := by
  unfold jumpEvents
  split <;> rfl

theorem jumpEvents_eq (m : Image) (mark distance : Int) :
    jumpEvents m mark distance = if markAfter mark distance < mark then
      [.tableMoved (slotOffset m (markAfter mark distance))] else [] := by
  unfold jumpEvents
  split
  · next h =>
    have hd : markAfter mark distance = distance := by
      unfold markAfter at h ⊢
      split at h <;> split <;> omega
    rw [hd]
  · rfl

namespace Reading

variable (c : Cursor) (r : Reading)

theorem mark_read_of_not_jumps {p : Param} (h : p.jumps = false) :
    (r.read c p).mark = r.mark ∧ (r.read c p).events = r.events := by
  cases p with
  | jump | caseJump => cases h
  | byte | small | big | word | constants | packedArray | string => exact ⟨rfl, rfl⟩
  | comparison =>
    simp only [read, comparison]
    split <;> exact ⟨rfl, rfl⟩
  | standardCall =>
    simp only [read, standardCall]
    split <;> exact ⟨rfl, rfl⟩

theorem mark_foldl_read_of_not_jumps : ∀ (ps : List Param) (r : Reading),
    (∀ p ∈ ps, p.jumps = false) →
      (ps.foldl (read c) r).mark = r.mark ∧ (ps.foldl (read c) r).events = r.events
  | [], _, _ => ⟨rfl, rfl⟩
  | p :: ps, r, h => by
    obtain ⟨hm, he⟩ := mark_foldl_read_of_not_jumps ps (r.read c p)
      fun q hq => h q (List.mem_cons_of_mem _ hq)
    obtain ⟨hm', he'⟩ := mark_read_of_not_jumps c r (h p List.mem_cons_self)
    exact ⟨hm.trans hm', he.trans he'⟩

theorem traceOf_events_caseJump : traceOf (r.caseJump c).events = traceOf r.events ++
    jumpEvents c.image r.mark (signed (c.ahead (aligned c r.length + 5))) := by
  simp only [caseJump, jumped, traceOf_append, traceOf_jumpEvents, List.append_assoc]
  split <;> simp [traceOf, Event.level]

end Reading

theorem readOperation_jump {c : Cursor} (h : (entry (c.ahead 0)).params = [.jump]) :
    (readOperation c).length = 2 ∧ (readOperation c).mark = markAfter c.mark (signed (c.ahead 1)) ∧
      (readOperation c).events = jumpEvents c.image c.mark (signed (c.ahead 1)) := by
  simp [readOperation, h, Reading.read, Reading.implied, Reading.extend, Reading.jumped]

theorem readOperation_caseJump {c : Cursor} (h : (entry (c.ahead 0)).params = [.caseJump]) :
    Reading.aligned c 1 + 5 < (readOperation c).length ∧
      (readOperation c).mark =
        markAfter c.mark (signed (c.ahead (Reading.aligned c 1 + 5))) ∧
      traceOf (readOperation c).events =
        jumpEvents c.image c.mark (signed (c.ahead (Reading.aligned c 1 + 5))) := by
  simp only [readOperation, h, List.foldl_cons, List.foldl_nil, Reading.read, Reading.implied,
    Reading.extend]
  refine ⟨?_, rfl, Reading.traceOf_events_caseJump c _⟩
  simp only [Reading.caseJump]
  omega

theorem readOperation_other {c : Cursor} (h : ∀ p ∈ (entry (c.ahead 0)).params, p.jumps = false) :
    (readOperation c).mark = c.mark ∧ (readOperation c).events = [] :=
  Reading.mark_foldl_read_of_not_jumps c _ _ h

/-- The distance byte of a jump, by the parameters of the opcode. -/
def distanceByte? (c : Cursor) : Option UInt8 :=
  match (entry (c.ahead 0)).params with
  | [.jump] => some (c.ahead 1)
  | [.caseJump] => some (c.ahead (Reading.aligned c 1 + 5))
  | _ => none

theorem distanceByte?_other {c : Cursor}
    (h : ∀ p ∈ (entry (c.ahead 0)).params, p.jumps = false) : distanceByte? c = none := by
  unfold distanceByte?
  split
  · next hp => rw [hp] at h; exact absurd (h _ List.mem_cons_self) (by decide)
  · next hp => rw [hp] at h; exact absurd (h _ List.mem_cons_self) (by decide)
  · rfl

theorem jumpByte?_readOperation (c : Cursor) :
    jumpByte? ((readOperation c).instruction c) = distanceByte? c := by
  have hname : ((readOperation c).instruction c).mnemonic ∈ (entry (c.ahead 0)).mnemonics :=
    mnemonic_readOperation_mem c
  have hcode : ∀ k, ((readOperation c).instruction c).code[k]? =
      if k < (readOperation c).length then some (c.ahead k) else none :=
    ByteStream.getElem?_take _ _
  unfold jumpByte?
  rcases params_entry_jump (c.ahead 0) with ⟨h, hn⟩ | ⟨h, hn⟩ | ⟨h, hn⟩
  · obtain ⟨hlen, -, -⟩ := readOperation_jump h
    rw [if_pos (hn _ hname), hcode, hlen, distanceByte?, h]
    rfl
  · obtain ⟨hlen, -, -⟩ := readOperation_caseJump h
    have hat : (if c.address.toNat % 2 = 0 then 7 else 6) = Reading.aligned c 1 + 5 := by
      unfold Reading.aligned
      split <;> omega
    rw [hn _ hname, if_neg (by decide), if_pos rfl, distanceByte?, h]
    show _[if c.address.toNat % 2 = 0 then 7 else 6]? = _
    rw [hat, hcode, if_pos hlen]
  · obtain ⟨h1, h2⟩ := hn _ hname
    rw [if_neg h1, if_neg h2, distanceByte?_other h]

/-- What a jump with a distance byte does to the mark; without a jump it stays. -/
def markBy (mark : Int) (b : Option UInt8) : Int :=
  (b.map fun b => markAfter mark (signed b)).getD mark

/-- **One step**: the mark changes by the jump that is listed, and the step reports the start of the
table exactly if the mark falls. -/
theorem read_mark (c : Cursor) :
    (read c).mark = markBy c.mark (jumpByte? (Decoder.pcode.instruction c)) ∧
    traceOf (read c).events = if (read c).mark < c.mark then
      [.tableMoved (slotOffset c.image (read c).mark)] else [] := by
  show _ = markBy c.mark (jumpByte? ((read c).instruction c)) ∧ _
  by_cases ht : inTable c = true
  · rw [read, if_pos ht]
    refine ⟨rfl, ?_⟩
    rw [if_neg (by show ¬ c.mark < c.mark; omega)]
    rfl
  · rw [read, if_neg ht, jumpByte?_readOperation]
    rcases params_entry_jump (c.ahead 0) with ⟨h, -⟩ | ⟨h, -⟩ | ⟨h, -⟩
    · obtain ⟨-, hm, he⟩ := readOperation_jump h
      rw [hm, he, distanceByte?, h, traceOf_jumpEvents, jumpEvents_eq]
      exact ⟨rfl, rfl⟩
    · obtain ⟨-, hm, he⟩ := readOperation_caseJump h
      rw [hm, he, distanceByte?, h, jumpEvents_eq]
      exact ⟨rfl, rfl⟩
    · obtain ⟨hm, he⟩ := readOperation_other h
      rw [hm, he, distanceByte?_other h, if_neg (by omega)]
      exact ⟨rfl, rfl⟩

theorem markBy_le (mark : Int) (b : Option UInt8) : markBy mark b ≤ mark := by
  cases b with
  | none => exact Int.le_refl mark
  | some b =>
    show markAfter mark (signed b) ≤ mark
    unfold markAfter
    split <;> omega

theorem le_markBy {mark : Int} (h : -128 ≤ mark) (b : Option UInt8) : -128 ≤ markBy mark b := by
  cases b with
  | none => exact h
  | some b =>
    have hb := le_signed b
    show -128 ≤ markAfter mark (signed b)
    unfold markAfter
    split <;> omega

theorem mnemonic_eq_slot_iff (c : Cursor) :
    (Decoder.pcode.instruction c).mnemonic = "J/T" ↔ inTable c = true := by
  show (read c).mnemonic = "J/T" ↔ _
  by_cases ht : inTable c = true
  · rw [read, if_pos ht]
    exact ⟨fun _ => ht, fun _ => rfl⟩
  · rw [read, if_neg ht]
    have hne : (readOperation c).mnemonic ≠ "J/T" := by
      intro h
      exact mnemonic_readOperation_notMem c (by rw [h]; decide)
    exact ⟨fun h => absurd h hne, fun h => absurd h ht⟩

theorem length_code_slot {c : Cursor} (h : inTable c = true) :
    (Decoder.pcode.instruction c).code.length = 2 := by
  show (c.ahead.take (read c).length).length = 2
  rw [ByteStream.length_take, read, if_pos h]
  rfl

/-- A step in the table leads further into the table. -/
theorem inTable_advance {c : Cursor} (h : inTable c = true) :
    inTable (Decoder.pcode.advance c) = true := by
  have hmark : (Decoder.pcode.advance c).mark = c.mark := by
    show (read c).mark = c.mark
    rw [read, if_pos h]
    rfl
  unfold inTable at h ⊢
  rw [decide_eq_true_eq] at h ⊢
  rw [hmark, Decoder.image_advance, Decoder.offset_advance]
  omega

/-! ### Any number of steps -/

/-- The cursor after a number of steps. -/
def cursorAt (c : Cursor) : Nat → Cursor
  | 0 => c
  | k + 1 => Decoder.pcode.advance (cursorAt c k)

/-- The line of a step. -/
def lineAt (c : Cursor) (k : Nat) : Instruction := Decoder.pcode.instruction (cursorAt c k)

/-- What a step reports. -/
def eventsAt (c : Cursor) (k : Nat) : List Event := Decoder.pcode.events (cursorAt c k)

theorem cursorAt_advance (c : Cursor) : ∀ k,
    cursorAt (Decoder.pcode.advance c) k = cursorAt c (k + 1)
  | 0 => rfl
  | k + 1 => by rw [cursorAt, cursorAt_advance c k]; rfl

theorem image_cursorAt (c : Cursor) : ∀ k, (cursorAt c k).image = c.image
  | 0 => rfl
  | k + 1 => image_cursorAt c k

theorem mark_cursorAt_succ (c : Cursor) (k : Nat) :
    (cursorAt c (k + 1)).mark = markBy (cursorAt c k).mark (jumpByte? (lineAt c k)) :=
  (read_mark (cursorAt c k)).1

theorem inTable_cursorAt_iff (c : Cursor) (k : Nat) : inTable (cursorAt c k) = true ↔
    (c.image.size : Int) + (cursorAt c k).mark + 8 ≤ (cursorAt c k).offset := by
  unfold inTable slotOffset attributeBytes
  rw [decide_eq_true_eq, image_cursorAt]

theorem mark_cursorAt_le (c : Cursor) {k l : Nat} (h : k ≤ l) :
    (cursorAt c l).mark ≤ (cursorAt c k).mark := by
  induction h with
  | refl => exact Int.le_refl _
  | step _ ih =>
    rw [mark_cursorAt_succ]
    exact Int.le_trans (markBy_le _ _) ih

theorem le_mark_cursorAt {c : Cursor} (h : -128 ≤ c.mark) : ∀ k, -128 ≤ (cursorAt c k).mark
  | 0 => h
  | k + 1 => by
    rw [mark_cursorAt_succ]
    exact le_markBy (le_mark_cursorAt h k) _

theorem inTable_cursorAt {c : Cursor} {k l : Nat} (h : k ≤ l) (hk : inTable (cursorAt c k) = true) :
    inTable (cursorAt c l) = true := by
  induction h with
  | refl => exact hk
  | step _ ih => exact inTable_advance ih

/-- The steps that lower the mark. -/
def falls (c : Cursor) (n : Nat) : List Nat :=
  (List.range n).filter fun k => (cursorAt c (k + 1)).mark < (cursorAt c k).mark

/-- The start of the table after a step. -/
def tableStart (c : Cursor) (k : Nat) : Int := c.image.size + (cursorAt c (k + 1)).mark + 8

theorem traceOf_events (c : Cursor) : ∀ n,
    traceOf ((List.range n).flatMap (eventsAt c)) =
      (falls c n).map fun k => .tableMoved (tableStart c k)
  | 0 => rfl
  | n + 1 => by
    have hstep : traceOf (eventsAt c n) = if (cursorAt c (n + 1)).mark < (cursorAt c n).mark then
        [.tableMoved (tableStart c n)] else [] := by
      have h := (read_mark (cursorAt c n)).2
      rw [image_cursorAt] at h
      exact h
    unfold falls
    rw [List.range_succ, List.flatMap_append, traceOf_append, traceOf_events c n,
      List.filter_append, List.map_append, List.flatMap_singleton, hstep]
    by_cases h : (cursorAt c (n + 1)).mark < (cursorAt c n).mark
    · simp [h, falls]
    · simp [h, falls]

/-- Each fall of the mark moves the table further down. -/
theorem pairwise_tableStart (c : Cursor) (n : Nat) :
    ((falls c n).map (tableStart c)).Pairwise (· > ·) := by
  have hlt : (falls c n).Pairwise (· < ·) := List.pairwise_lt_range.filter _
  refine List.pairwise_map.mpr (hlt.imp_of_mem fun {k l} _ hl hkl => ?_)
  have hfall : (cursorAt c (l + 1)).mark < (cursorAt c l).mark := by
    simpa using (List.mem_filter.mp hl).2
  have hle := mark_cursorAt_le c (show k + 1 ≤ l from hkl)
  unfold tableStart
  omega

/-- A listing is the run of some number of steps. -/
theorem exists_listing_eq (c : Cursor) : ∃ n,
    (Decoder.pcode.listing c).instructions = (List.range n).map (lineAt c) ∧
    (Decoder.pcode.listing c).events = (List.range n).flatMap (eventsAt c) := by
  generalize hd : Decoder.pcode = d
  fun_induction Decoder.listing d c with
  | case1 d c hw ih =>
    subst hd
    obtain ⟨n, hi, he⟩ := ih rfl
    have hline : lineAt (Decoder.pcode.advance c) = fun k => lineAt c (k + 1) := by
      funext k; rw [lineAt, cursorAt_advance]; rfl
    have hevents : eventsAt (Decoder.pcode.advance c) = fun k => eventsAt c (k + 1) := by
      funext k; rw [eventsAt, cursorAt_advance]; rfl
    refine ⟨n + 1, ?_, ?_⟩
    · rw [Listing.instructions_cons, hi, hline, List.range_succ_eq_map, List.map_cons, List.map_map]
      rfl
    · rw [Listing.events_cons, he, hevents, List.range_succ_eq_map, List.flatMap_cons,
        List.flatMap_map]
      rfl
  | case2 d c hw => exact ⟨0, rfl, rfl⟩

/-- **The boundary between code and jump table.** From any cursor, over any number of steps:
* a line is a word of the table, of two bytes, exactly if it starts at the offset
  `size + mark + 8` or behind it;
* the mark falls to the distance of a jump that is below it, and changes by nothing else;
* behind a word of the table there are only words of the table;
* on a fresh cursor the mark stays between -128 and 0, so that the table has at most the last 120
  bytes;
* the events that report the start of the table are one for each fall of the mark, and their offsets
  fall strictly.

The listing is such a run. -/
theorem jump_table_boundary (c : Cursor) :
    (∀ k, ((lineAt c k).mnemonic = "J/T" ↔
        (c.image.size : Int) + (cursorAt c k).mark + 8 ≤ (cursorAt c k).offset) ∧
      ((lineAt c k).mnemonic = "J/T" → (lineAt c k).code.length = 2)) ∧
    (∀ k b, jumpByte? (lineAt c k) = some b → signed b < 0 →
      (cursorAt c (k + 1)).mark = min (cursorAt c k).mark (signed b)) ∧
    (∀ k, (∀ b, jumpByte? (lineAt c k) = some b → 0 ≤ signed b) →
      (cursorAt c (k + 1)).mark = (cursorAt c k).mark) ∧
    (∀ k l, k ≤ l → (lineAt c k).mnemonic = "J/T" → (lineAt c l).mnemonic = "J/T") ∧
    (c.mark = 0 → ∀ k, -128 ≤ (cursorAt c k).mark ∧ (cursorAt c k).mark ≤ 0 ∧
      ((lineAt c k).mnemonic = "J/T" → (c.image.size : Int) - 120 ≤ (cursorAt c k).offset)) ∧
    (∀ n, ∃ starts : List Int,
      ((List.range n).flatMap (eventsAt c)).filter (fun e => e.level = .trace) =
        starts.map .tableMoved ∧
      starts = ((List.range n).filter fun k =>
        (cursorAt c (k + 1)).mark < (cursorAt c k).mark).map (fun k =>
          (c.image.size : Int) + (cursorAt c (k + 1)).mark + 8) ∧
      starts.Pairwise (· > ·)) ∧
    ∃ n, (Decoder.pcode.listing c).instructions = (List.range n).map (lineAt c) ∧
      (Decoder.pcode.listing c).events = (List.range n).flatMap (eventsAt c) := by
  have hslot : ∀ k, (lineAt c k).mnemonic = "J/T" ↔ inTable (cursorAt c k) = true :=
    fun k => mnemonic_eq_slot_iff (cursorAt c k)
  refine ⟨fun k => ⟨?_, ?_⟩, ?_, ?_, ?_, ?_, ?_, exists_listing_eq c⟩
  · rw [hslot, inTable_cursorAt_iff]
  · intro h
    exact length_code_slot ((hslot k).mp h)
  · intro k b hb hneg
    rw [mark_cursorAt_succ, hb]
    exact if_pos hneg
  · intro k hb
    rw [mark_cursorAt_succ]
    cases hj : jumpByte? (lineAt c k) with
    | none => rfl
    | some b => exact if_neg (Int.not_lt.mpr (hb b hj))
  · intro k l hkl h
    exact (hslot l).mpr (inTable_cursorAt hkl ((hslot k).mp h))
  · intro h0 k
    have hlow := le_mark_cursorAt (c := c) (by omega) k
    have hhigh : (cursorAt c k).mark ≤ c.mark := mark_cursorAt_le c (Nat.zero_le k)
    refine ⟨hlow, by omega, fun h => ?_⟩
    have := (inTable_cursorAt_iff c k).mp ((hslot k).mp h)
    omega
  · intro n
    refine ⟨(falls c n).map (tableStart c), ?_, rfl, pairwise_tableStart c n⟩
    rw [List.map_map]
    exact traceOf_events c n

/-- A jump through the first word of a table of one word. -/
theorem jump_table_boundary_one_word :
    let c : Cursor := { image := { base := 0x0100, bytes := #[0xA1, 0xF6, 0x02, 0x00] } }
    jumpByte? (lineAt c 0) = some 0xF6 ∧ (cursorAt c 1).mark = min 0 (signed 0xF6) ∧
      jumpByte? (lineAt c 1) = none ∧ (cursorAt c 2).mark = (cursorAt c 1).mark ∧
      (lineAt c 1).mnemonic = "J/T" ∧ (lineAt c 7).mnemonic = "J/T" ∧
      -128 ≤ (cursorAt c 7).mark := by
  intro c
  obtain ⟨-, hfall, hstay, hon, hfresh, -, -⟩ := jump_table_boundary c
  have hjump : jumpByte? (lineAt c 0) = some 0xF6 := by decide +kernel
  have hnone : jumpByte? (lineAt c 1) = none := by decide +kernel
  have hslot : (lineAt c 1).mnemonic = "J/T" := by decide +kernel
  refine ⟨hjump, hfall 0 0xF6 hjump (by decide), hnone, hstay 1 ?_, hslot,
    hon 1 7 (by decide) hslot, (hfresh rfl 7).1⟩
  intro b hb
  rw [hnone] at hb
  cases hb

end Disassembly.PCode
