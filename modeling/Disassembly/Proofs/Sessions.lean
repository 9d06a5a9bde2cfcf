import Disassembly.Proofs.CodeLengths

/-! # Sessions with a decoder

A decoder can be used step by step, for whole listings and on one cursor after another, and keeps
its state all the time. What it then does is said here for every state that it comes to:

* `Session.listing_eq_steps`: a listing is a run of steps, taken as long as there is something to
  do;
* `Decoder.length_listing_le`, `Decoder.length_listing_le_remaining`: how many steps these can be;
* `Queued`: a decoder that keeps the directives it owes in a queue, and `Queued.run_queued`: in
  every session it is the one that keeps the address of a single directive, so that its queue never
  has more than one entry. -/

namespace Disassembly

/-! ### Sessions -/

/-- Something that is done with a decoder and a cursor. -/
inductive Action where
  /-- Takes one instruction. -/
  | one
  /-- Lists all that is left. -/
  | all
  /-- Goes on with another cursor, at any position and with any mark. -/
  | load (c : Cursor)

/-- A decoder at a cursor. -/
structure Session where
  decoder : Decoder
  cursor : Cursor

namespace Session

/-- The session after an action. -/
def act (s : Session) : Action → Session
  | .one => ⟨s.decoder.next s.cursor, s.decoder.advance s.cursor⟩
  | .all => ⟨(s.decoder.listing s.cursor).decoder, (s.decoder.listing s.cursor).cursor⟩
  | .load c => { s with cursor := c }

/-- The session after a run of actions. -/
def run (s : Session) : List Action → Session
  | [] => s
  | x :: xs => (s.act x).run xs

/-- Whether there is something left to list. -/
def hasWork (s : Session) : Bool := s.decoder.hasWork s.cursor

/-- The next line. -/
def line (s : Session) : Instruction := s.decoder.instruction s.cursor

/-- The session after a number of steps. -/
def steps (s : Session) : Nat → Session
  | 0 => s
  | n + 1 => (s.act .one).steps n

/-- **A listing is a run of steps**, as many as it has lines, with something left to do before each
of them and nothing after the last. -/
theorem listing_eq_steps (s : Session) :
    let l := s.decoder.listing s.cursor
    let n := l.instructions.length
    s.act .all = s.steps n ∧ l.instructions = (List.range n).map (fun k => (s.steps k).line) ∧
      (∀ k < n, (s.steps k).hasWork = true) ∧ (s.steps n).hasWork = false := by
  obtain ⟨d, c⟩ := s
  induction d, c using Decoder.listing.induct with
  | case1 d c hw ih =>
    obtain ⟨hact, hlines, hwork, hdone⟩ := ih
    simp only [act, Decoder.listing_step hw, Listing.instructions_cons, Listing.decoder_cons,
      Listing.cursor_cons, List.length_cons]
    refine ⟨hact, ?_, fun k hk => ?_, hdone⟩
    · rw [List.range_succ_eq_map, List.map_cons, List.map_map]
      exact congrArg (_ :: ·) hlines
    · cases k with
      | zero => exact hw
      | succ k => exact hwork k (Nat.lt_of_succ_lt_succ hk)
  | case2 d c hw =>
    have hdone : d.hasWork c = false := Bool.eq_false_iff.mpr hw
    simp only [act, Decoder.listing_done hdone, List.length_nil]
    refine ⟨rfl, rfl, fun k hk => ?_, hdone⟩
    omega

end Session

/-! ### The decoders of an architecture -/

namespace Architecture

variable {arch : Architecture} {d : Decoder}

theorem Decodes.next (h : arch.Decodes d) (c : Cursor) : arch.Decodes (d.next c) := by
  rcases h with rfl | ⟨rfl, w, rfl⟩
  · cases arch with
    | switching6502 => exact .inr ⟨rfl, _, rfl⟩
    | mos6502 | undocumented6502 | cmos65C02 | sweet16 | z80 | pcode => exact .inl rfl
  · exact .inr ⟨rfl, _, rfl⟩

theorem Decodes.listing (h : arch.Decodes d) (c : Cursor) :
    arch.Decodes (d.listing c).decoder := by
  fun_induction Decoder.listing d c with
  | case1 d c hw ih => exact ih (h.next c)
  | case2 d c hw => exact h

theorem Decodes.run : ∀ {s : Session}, arch.Decodes s.decoder → ∀ xs : List Action,
    arch.Decodes (s.run xs).decoder
  | _, h, [] => h
  | s, h, .one :: xs => Decodes.run (s := s.act .one) (h.next s.cursor) xs
  | s, h, .all :: xs => Decodes.run (s := s.act .all) (h.listing s.cursor) xs
  | s, h, .load c :: xs => Decodes.run (s := s.act (.load c)) h xs

theorem Decodes.eq_switching_of_owes (h : arch.Decodes d) (ho : d.owes = true) :
    arch = .switching6502 := by
  rcases h with rfl | ⟨rfl, -⟩
  · rw [owes_decoder] at ho
    cases ho
  · rfl

theorem Decodes.ne_switching (h : arch.Decodes d) (harch : arch ≠ .switching6502) (w : Switching) :
    d ≠ .switching w := by
  rcases h with rfl | ⟨rfl, -⟩
  · exact decoder_ne_switching harch w
  · exact absurd rfl harch

end Architecture

/-! ### How many lines there are -/

namespace Decoder

theorem length_listing_le (d : Decoder) (c : Cursor) :
    (d.listing c).instructions.length ≤ d.work c := by
  fun_induction listing d c with
  | case1 d c hw ih =>
    have hless := work_step_lt hw
    rw [Listing.instructions_cons, List.length_cons]
    omega
  | case2 d c hw => exact Nat.zero_le _

/-- A decoder that never owes a directive has no more lines than bytes. -/
theorem length_listing_le_remaining {d : Decoder} (h : ∀ w, d ≠ .switching w) (c : Cursor) :
    (d.listing c).instructions.length ≤ c.image.size - c.offset := by
  fun_induction listing d c with
  | case1 d c hw ih =>
    have howes : d.owes = false := by
      cases d with
      | switching w => exact absurd rfl (h w)
      | mos6502 | sweet16 | z80 | pcode => rfl
    have hmore : c.offset < c.image.size := by
      simpa [hasWork, howes, Cursor.hasMore_iff] using hw
    have hpos := length_code_instruction_pos howes c
    have hrest := ih (by rwa [next_eq_self h])
    rw [image_advance, offset_advance] at hrest
    rw [Listing.instructions_cons, List.length_cons]
    omega
  | case2 d c hw => exact Nat.zero_le _

/-- A step that pays a directive leaves the cursor as it is. -/
theorem advance_of_owes {d : Decoder} (h : d.owes = true) (c : Cursor) : d.advance c = c := by
  have hcode := code_eq_nil_of_owes h (c := c)
  have hmark : d.markAfter c = c.mark := by
    cases d with
    | switching w => rfl
    | mos6502 | sweet16 | z80 | pcode => cases h
  unfold advance
  rw [hcode, hmark]
  rfl

end Decoder

/-! ### Directives in a queue -/

/-- A decoder of 6502 code with calls into SWEET16 that keeps the directives it owes in a queue.
Nothing in its steps limits the queue. -/
structure Queued where
  dialect : Dialect := .mos6502
  queue : List Instruction := []

namespace Queued

/-- The next line: the front of the queue, or else what is read at the cursor. -/
def line (q : Queued) (c : Cursor) : Instruction :=
  match q.queue with
  | i :: _ => i
  | [] => q.dialect.decode c.address c.ahead

/-- The cursor behind the next line. -/
def advance (q : Queued) (c : Cursor) : Cursor :=
  match q.queue with
  | _ :: _ => c
  | [] => c.advance (q.dialect.decode c.address c.ahead).code.length

/-- The decoder in another instruction set, with the directive for the change at the end of the
queue. -/
def switchTo (q : Queued) (dialect : Dialect) (a : Address) : Queued :=
  { dialect, queue := q.queue ++ [dialect.directive a] }

/-- The decoder after the next line. -/
def next (q : Queued) (c : Cursor) : Queued :=
  match q.queue with
  | _ :: rest => { q with queue := rest }
  | [] =>
    if Switching.isTrigger q.dialect (q.dialect.decode c.address c.ahead) then
      q.switchTo q.dialect.other (q.advance c).address
    else q

/-- Whether there is something left to list. -/
def hasWork (q : Queued) (c : Cursor) : Bool := c.hasMore || !q.queue.isEmpty

/-- A bound on the number of lines still to come. -/
def work (q : Queued) (c : Cursor) : Nat := 2 * (c.image.size - c.offset) + q.queue.length

theorem length_queue_next_le {q : Queued} (h : q.queue = []) (c : Cursor) :
    (q.next c).queue.length ≤ 1 := by
  simp only [next, h]
  split
  · show (q.queue ++ [_]).length ≤ 1
    rw [h]
    exact Nat.le_refl 1
  · rw [h]
    exact Nat.zero_le 1

/-- Each step leaves less to do: it shortens the queue, or takes bytes and puts at most one
directive into it. -/
theorem work_step_lt {q : Queued} {c : Cursor} (h : q.hasWork c = true) :
    (q.next c).work (q.advance c) < q.work c := by
  rcases hq : q.queue with _ | ⟨i, rest⟩
  · have hmore : c.offset < c.image.size := by
      simpa [hasWork, hq, Cursor.hasMore_iff] using h
    have hpos : 0 < (q.dialect.decode c.address c.ahead).code.length := by
      rw [← q.dialect.instruction_decoder]
      exact Decoder.length_code_instruction_pos (by cases q.dialect <;> rfl) c
    have hqueue := length_queue_next_le hq c
    have hadvance : q.advance c = c.advance (q.dialect.decode c.address c.ahead).code.length := by
      unfold advance
      rw [hq]
    unfold work
    rw [hadvance, hq, Cursor.image_advance, Cursor.offset_advance, List.length_nil]
    omega
  · have hstep : q.next c = { q with queue := rest } ∧ q.advance c = c := by
      unfold next advance
      rw [hq]
      exact ⟨rfl, rfl⟩
    unfold work
    rw [hstep.1, hstep.2, hq, List.length_cons]
    exact Nat.lt_succ_self _

/-- All lines from a cursor on, and the decoder and the cursor behind them. -/
def listing (q : Queued) (c : Cursor) : List Instruction × Queued × Cursor :=
  if q.hasWork c then
    let rest := (q.next c).listing (q.advance c)
    (q.line c :: rest.1, rest.2)
  else ([], q, c)
termination_by q.work c
decreasing_by exact work_step_lt ‹_›

/-- The decoder and its cursor after an action. -/
def act : Queued × Cursor → Action → Queued × Cursor
  | (q, c), .one => (q.next c, q.advance c)
  | (q, c), .all => (q.listing c).2
  | (q, _), .load c => (q, c)

/-- The decoder and its cursor after a run of actions. -/
def run (s : Queued × Cursor) : List Action → Queued × Cursor
  | [] => s
  | x :: xs => run (act s x) xs

end Queued

/-- The state with the directive that is owed, if any, in a queue. -/
def Switching.queued (w : Switching) : Queued :=
  { dialect := w.dialect, queue := w.pending.toList.map w.dialect.directive }

namespace Queued

variable (w : Switching) (c : Cursor)

theorem line_queued : w.queued.line c = (Decoder.switching w).instruction c := by
  obtain ⟨dialect, _ | a⟩ := w <;> rfl

theorem advance_queued : w.queued.advance c = (Decoder.switching w).advance c := by
  obtain ⟨dialect, _ | a⟩ := w
  · rfl
  · rw [Decoder.advance_of_owes rfl]
    rfl

theorem hasWork_queued : w.queued.hasWork c = (Decoder.switching w).hasWork c := by
  obtain ⟨dialect, _ | a⟩ := w <;> rfl

theorem next_queued : w.queued.next c = (w.next c.address c.ahead).queued := by
  obtain ⟨dialect, _ | a⟩ := w
  · set i := dialect.decode c.address c.ahead with hi
    have haddress : (c.advance i.code.length).address = Switching.addressBehind i := by
      have hline : i.address = c.address := by cases dialect <;> rfl
      rw [Cursor.address_advance, Switching.addressBehind, hline]
    show (if Switching.isTrigger dialect i then _ else _) = (Switching.behind dialect i).queued
    unfold Switching.behind
    split
    · rw [← haddress]
      rfl
    · rfl
  · rfl

/-- The two decoders list the same lines and end in the same state. -/
theorem listing_queued (w : Switching) (c : Cursor) : ∃ w',
    ((Decoder.switching w).listing c).decoder = .switching w' ∧
    w.queued.listing c = (((Decoder.switching w).listing c).instructions, w'.queued,
      ((Decoder.switching w).listing c).cursor) := by
  generalize hd : Decoder.switching w = d
  fun_induction Decoder.listing d c generalizing w with
  | case1 d c hw ih =>
    subst hd
    obtain ⟨w', hdecoder, hlisting⟩ := ih (w.next c.address c.ahead) rfl
    refine ⟨w', hdecoder, ?_⟩
    rw [listing, hasWork_queued, if_pos hw, next_queued, advance_queued, hlisting, line_queued]
    rfl
  | case2 d c hw =>
    subst hd
    refine ⟨w, rfl, ?_⟩
    rw [listing, hasWork_queued, if_neg hw]

/-- **The decoder with a queue is the one that keeps a single address**, whatever is done. -/
theorem run_queued (xs : List Action) (w : Switching) (c : Cursor) : ∃ w',
    (Session.run ⟨.switching w, c⟩ xs).decoder = .switching w' ∧
    run (w.queued, c) xs = (w'.queued, (Session.run ⟨.switching w, c⟩ xs).cursor) := by
  induction xs generalizing w c with
  | nil => exact ⟨w, rfl, rfl⟩
  | cons x xs ih =>
    cases x with
    | one =>
      obtain ⟨w', hdecoder, hrun⟩ := ih (w.next c.address c.ahead) ((Decoder.switching w).advance c)
      refine ⟨w', hdecoder, ?_⟩
      rw [run, act, next_queued, advance_queued, hrun]
      rfl
    | all =>
      obtain ⟨w₁, hdecoder, hlisting⟩ := listing_queued w c
      obtain ⟨w', hdecoder', hrun⟩ := ih w₁ ((Decoder.switching w).listing c).cursor
      have hact : Session.act ⟨.switching w, c⟩ .all =
          ⟨.switching w₁, ((Decoder.switching w).listing c).cursor⟩ := by
        rw [Session.act, hdecoder]
      rw [Session.run, hact]
      refine ⟨w', hdecoder', ?_⟩
      rw [run, act, hlisting, hrun]
    | load c' => exact ih w c'

end Queued

theorem Switching.length_queue_queued_le (w : Switching) : w.queued.queue.length ≤ 1 := by
  obtain ⟨dialect, _ | a⟩ := w
  · exact Nat.zero_le 1
  · exact Nat.le_refl 1

theorem Switching.of_mem_queue_queued {w : Switching} {i : Instruction} (h : i ∈ w.queued.queue) :
    i.mnemonic = w.dialect.directiveName ∧ i.code = [] ∧ i.operands = [] := by
  obtain ⟨a, -, rfl⟩ := List.mem_map.mp h
  cases w.dialect <;> exact ⟨rfl, rfl, rfl⟩

theorem Switching.queue_queued_eq_nil_iff (w : Switching) :
    w.queued.queue = [] ↔ (Decoder.switching w).owes = false := by
  obtain ⟨dialect, _ | a⟩ := w <;> simp [queued, Decoder.owes]

theorem Switching.queue_queued_of_owes {w : Switching} (h : (Decoder.switching w).owes = true)
    (c : Cursor) : w.queued.queue = [(Decoder.switching w).instruction c] := by
  obtain ⟨dialect, _ | a⟩ := w
  · cases h
  · rfl

theorem Decoder.owes_listing (d : Decoder) (c : Cursor) : (d.listing c).decoder.owes = false :=
  (Bool.or_eq_false_iff.mp (d.hasWork_listing c)).2

/-! ### Progress -/

/-- **Progress in every session.** Whatever was done with the decoder of an architecture, step by
step, by whole listings or by going on with another cursor, at every cursor with any offset and
mark:
* if a directive is owed, the architecture is the 6502 with calls into SWEET16, and a step gives
  this directive, leaves the cursor as it is and owes nothing more; otherwise a step moves the
  offset by the length of the code of its line, which has at least one byte, and at most 131080
  bytes for p-code and the bytes of a row for the others;
* with the directives that are owed kept in a queue, the lines are the same, and the queue has at
  most one entry, which names the instruction set that the decoder is in;
* a listing is a run of as many steps as it has lines, with something left to do before each of
  them; it leaves no directive owed, with an empty queue, and no byte of the image. It has at most a
  line for each byte that was left, and for the 6502 with calls into SWEET16 at most two, and one
  more if a directive was owed. -/
theorem session_progress (arch : Architecture) (c₀ : Cursor) (xs : List Action) :
    let d := (Session.run ⟨arch.decoder, c₀⟩ xs).decoder
    let q := (Queued.run ({}, c₀) xs).1
    (∀ c : Cursor,
      (d.owes = true → arch = .switching6502 ∧ q.queue = [d.instruction c] ∧ d.advance c = c ∧
        (d.next c).owes = false) ∧
      (d.owes = false → (d.advance c).image = c.image ∧
        (d.advance c).offset = c.offset + (d.instruction c).code.length ∧
        1 ≤ (d.instruction c).code.length ∧ (d.instruction c).code.length ≤
          if arch = .pcode then 131080 else arch.defaults.bytesPerRow)) ∧
    (arch = .switching6502 →
      (∃ w, d = .switching w ∧ q.dialect = w.dialect ∧ (q.queue = [] ↔ d.owes = false)) ∧
      q.queue.length ≤ 1 ∧
      (∀ i ∈ q.queue, i.mnemonic = q.dialect.directiveName ∧ i.code = [] ∧ i.operands = []) ∧
      ∀ c : Cursor, q.line c = d.instruction c ∧ q.advance c = d.advance c ∧
        (q.listing c).1 = (d.listing c).instructions ∧ (q.listing c).2.1.queue = []) ∧
    ∀ c : Cursor,
      let l := d.listing c
      let n := l.instructions.length
      let s : Session := ⟨d, c⟩
      s.act .all = s.steps n ∧ l.instructions = (List.range n).map (fun k => (s.steps k).line) ∧
        (∀ k < n, (s.steps k).hasWork = true) ∧
        l.decoder.owes = false ∧ l.cursor.hasMore = false ∧ l.cursor.image = c.image ∧
        n ≤ if arch = .switching6502 then 2 * (c.image.size - c.offset) + d.owes.toNat
          else c.image.size - c.offset := by
  intro d q
  have hdecodes : arch.Decodes d := Architecture.Decodes.run (s := ⟨arch.decoder, c₀⟩) (.inl rfl) xs
  have hqueued : arch = .switching6502 → ∃ w, d = .switching w ∧ q = w.queued := by
    rintro rfl
    obtain ⟨w, hd, hq⟩ := Queued.run_queued xs {} c₀
    exact ⟨w, hd, congrArg Prod.fst hq⟩
  clear_value d q
  refine ⟨fun c => ⟨fun ho => ?_, fun ho => ?_⟩, fun harch => ?_, fun c => ?_⟩
  · have harch := hdecodes.eq_switching_of_owes ho
    obtain ⟨w, rfl, rfl⟩ := hqueued harch
    exact ⟨harch, Switching.queue_queued_of_owes ho c, Decoder.advance_of_owes ho c,
      Decoder.owes_next ho c⟩
  · exact ⟨rfl, rfl, Decoder.length_code_instruction_pos ho c,
      Decoder.length_code_instruction_le hdecodes c⟩
  · obtain ⟨w, rfl, rfl⟩ := hqueued harch
    refine ⟨⟨w, rfl, rfl, w.queue_queued_eq_nil_iff⟩, w.length_queue_queued_le,
      fun i => Switching.of_mem_queue_queued, fun c => ?_⟩
    obtain ⟨w', hdecoder, hlisting⟩ := Queued.listing_queued w c
    have howes := (Decoder.switching w).owes_listing c
    rw [hdecoder] at howes
    rw [hlisting]
    exact ⟨Queued.line_queued w c, Queued.advance_queued w c, rfl,
      w'.queue_queued_eq_nil_iff.mpr howes⟩
  · obtain ⟨hact, hlines, hwork, -⟩ := Session.listing_eq_steps ⟨d, c⟩
    have hmore := (Bool.or_eq_false_iff.mp (d.hasWork_listing c)).1
    refine ⟨hact, hlines, hwork, d.owes_listing c, hmore, d.image_cursor_listing c, ?_⟩
    split
    · exact d.length_listing_le c
    · next harch => exact Decoder.length_listing_le_remaining (hdecodes.ne_switching harch) c

/-- A call into SWEET16 as the last instruction, and then a cursor behind the end of the image: the
directive is owed there and is all that is left to list, and the step after it reads zeros. -/
theorem session_progress_owed :
    let m : Image := { base := 0xFFFD, bytes := #[0x20, 0x89, 0xF6] }
    let past : Cursor := { image := m, offset := 7, mark := -5 }
    let start : Session := ⟨Architecture.switching6502.decoder, { image := m }⟩
    let d := (start.run [.one]).decoder
    let paid := (start.run [.one, .load past, .one]).decoder
    let q := (Queued.run ({}, { image := m }) [.one]).1
    d.owes = true ∧ q.queue = [d.instruction past] ∧ d.advance past = past ∧
      q.queue.length ≤ 1 ∧ (d.instruction past).mnemonic = ".SWEET16" ∧
      (d.listing past).instructions.length ≤ 1 ∧
      paid.owes = false ∧ (paid.advance past).offset = 7 + (paid.instruction past).code.length ∧
      1 ≤ (paid.instruction past).code.length ∧ (paid.instruction past).code.length ≤ 3 := by
  intro m past start d paid q
  obtain ⟨hstep, hqueue, hlisting⟩ := session_progress .switching6502 { image := m } [.one]
  obtain ⟨hpaid, -⟩ := session_progress .switching6502 { image := m } [.one, .load past, .one]
  have howes : d.owes = true := by decide
  have hnone : paid.owes = false := by decide
  obtain ⟨-, hfront, hcursor, -⟩ := (hstep past).1 howes
  obtain ⟨-, hlength, hnames, -⟩ := hqueue rfl
  obtain ⟨-, hoffset, hpos, hle⟩ := (hpaid past).2 hnone
  have hname := (hnames (d.instruction past) (hfront ▸ List.mem_cons_self)).1
  obtain ⟨-, -, -, -, -, -, hlines⟩ := hlisting past
  exact ⟨howes, hfront, hcursor, hlength, hname.trans (by decide), Nat.le_trans hlines (by decide),
    hnone, hoffset, hpos, hle⟩

end Disassembly
