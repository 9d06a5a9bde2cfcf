import Disassembly.Proofs.Groups
import Disassembly.Proofs.JumpTable
import Disassembly.Proofs.Tiling

/-! # The outcome of a run

A run fails for one of two reasons, which are looked at in this order: there are fewer bytes than
are to be skipped, or a label group is asked for that stands for nothing. The usual groups of an
architecture stand for something in every library (`stands_of_mem_defaults`), so that a run without
a list of groups does not fail because of them.

What a run logs is framed by its first and its last event. All events between them are of the kinds
that the decoder has for its own: one step has no others (`Decoder.reports_of_mem_events`), hence
neither has a listing (`Decoder.reports_of_mem_listing`). -/

namespace Disassembly

/-! ### What decoders report -/

/-- Whether events of this kind are those of a decoder itself. The start and the end of a run are
not. -/
def Decoder.reports : Decoder → Event → Bool
  | switching _, .switched _ _ => true
  | pcode, .tableMoved _ => true
  | pcode, .casesPastEnd _ _ _ _ _ => true
  | _, _ => false

namespace PCode

theorem reports_of_mem_jumpEvents (m : Image) (mark distance : Int) :
    ∀ e ∈ jumpEvents m mark distance, Decoder.pcode.reports e = true := by
  unfold jumpEvents
  split <;> simp [Decoder.reports]

namespace Reading

variable {c : Cursor} {r : Reading}

/-- One parameter. -/
theorem reports_of_mem_read (h : ∀ e ∈ r.events, Decoder.pcode.reports e = true) (p : Param) :
    ∀ e ∈ (r.read c p).events, Decoder.pcode.reports e = true := by
  by_cases hp : p.jumps = false
  · rw [(mark_read_of_not_jumps c r hp).2]
    exact h
  · cases p with
    | jump => exact List.forall_mem_append.mpr ⟨h, reports_of_mem_jumpEvents _ _ _⟩
    | caseJump =>
      refine List.forall_mem_append.mpr
        ⟨List.forall_mem_append.mpr ⟨h, reports_of_mem_jumpEvents _ _ _⟩, ?_⟩
      split <;> simp [Decoder.reports]
    | _ => exact absurd rfl hp

theorem reports_of_mem_foldl_read : ∀ (ps : List Param) {r : Reading},
    (∀ e ∈ r.events, Decoder.pcode.reports e = true) →
      ∀ e ∈ (ps.foldl (read c) r).events, Decoder.pcode.reports e = true
  | [], _, h => h
  | p :: ps, _, h => reports_of_mem_foldl_read ps (reports_of_mem_read h p)

end Reading

theorem reports_of_mem_events (c : Cursor) :
    ∀ e ∈ (read c).events, Decoder.pcode.reports e = true := by
  unfold read
  split
  · exact List.forall_mem_nil _
  · exact Reading.reports_of_mem_foldl_read _ (List.forall_mem_nil _)

end PCode

namespace Decoder

/-- **One step** reports events of the decoder's own kinds. -/
theorem reports_of_mem_events (d : Decoder) (c : Cursor) :
    ∀ e ∈ d.events c, d.reports e = true := by
  cases d with
  | mos6502 | sweet16 | z80 => exact List.forall_mem_nil _
  | switching w =>
    simp only [events, Switching.events]
    split <;> simp [reports]
  | pcode => exact PCode.reports_of_mem_events c

theorem reports_next (d : Decoder) (c : Cursor) : (d.next c).reports = d.reports := by
  funext e
  cases d with
  | switching w => cases e <;> rfl
  | mos6502 | sweet16 | z80 | pcode => rfl

/-- **A listing** reports events of the decoder's own kinds. -/
theorem reports_of_mem_listing (d : Decoder) (c : Cursor) :
    ∀ e ∈ (d.listing c).events, d.reports e = true := by
  fun_induction listing d c with
  | case1 d c hw ih =>
    rw [reports_next] at ih
    exact List.forall_mem_append.mpr ⟨d.reports_of_mem_events c, ih⟩
  | case2 d c hw => exact List.forall_mem_nil _

end Decoder

/-! ### Groups of a run -/

theorem stands_of_mem_defaults (arch : Architecture) (l : LabelLibrary) :
    ∀ g ∈ arch.defaults.groups, l.Stands g := by
  have hall : l.Stands "All" := .inl (by cbv)
  cases arch <;> simp [Architecture.defaults, hall]

theorem LabelLibrary.exists_seed_eq_ok_iff (l : LabelLibrary) (requests : List String) :
    (∃ seed, l.seed requests = .ok seed) ↔ ∀ g ∈ requests, l.Stands g := by
  constructor
  · rintro ⟨seed, hseed⟩
    refine (l.stands_or_exists requests).resolve_right ?_
    rintro ⟨before, g, after, hlist, hbefore, hg⟩
    have herror : l.seed requests = .error (.unknownLabelGroup g) :=
      (l.seed_eq_error_iff _ _).mpr
        ((l.select_eq_error_iff _ _).mpr ⟨before, g, after, hlist, hbefore, hg, rfl⟩)
    rw [herror] at hseed
    cases hseed
  · intro h
    obtain ⟨gs, hgs, -⟩ := select_of_stands h
    unfold seed
    rw [hgs]
    exact ⟨_, rfl⟩

namespace Settings

variable (s : Settings) (bytes : Array UInt8)

/-- Only a list of groups that is given can make the seeding fail. -/
theorem seed_labelGroups_eq_error_iff (e : Error) :
    s.library.seed s.labelGroups = .error e ↔
      ∃ before g after, s.groups = some (before ++ g :: after) ∧
        (∀ m ∈ before, s.library.Stands m) ∧ ¬ s.library.Stands g ∧ e = .unknownLabelGroup g := by
  rw [LabelLibrary.seed_eq_error_iff, LabelLibrary.select_eq_error_iff]
  unfold labelGroups
  cases s.groups with
  | some groups => simp only [Option.getD_some, Option.some.injEq]
  | none =>
    constructor
    · rintro ⟨before, g, after, hlist, -, hg, -⟩
      refine absurd (stands_of_mem_defaults s.architecture s.library g ?_) hg
      rw [← Option.getD_none (a := s.architecture.defaults.groups), hlist]
      exact List.mem_append_right _ List.mem_cons_self
    · rintro ⟨before, g, after, hlist, -⟩
      cases hlist

theorem labelGroups_stand_iff : (∀ g ∈ s.labelGroups, s.library.Stands g) ↔
    ∀ groups, s.groups = some groups → ∀ g ∈ groups, s.library.Stands g := by
  unfold labelGroups
  cases s.groups with
  | some groups => simp
  | none => simpa using stands_of_mem_defaults s.architecture s.library

theorem run_eq_error_iff (e : Error) : s.run bytes = .error e ↔
    bytes.size < s.skip ∧ e = .offsetOutOfRange s.skip bytes.size ∨
    s.skip ≤ bytes.size ∧ s.library.seed s.labelGroups = .error e := by
  rw [run_eq]
  by_cases hs : bytes.size < s.skip
  · rw [if_pos hs, Except.error.injEq]
    exact ⟨fun h => .inl ⟨hs, h.symm⟩, fun h => (h.resolve_right (by omega)).2.symm⟩
  · rw [if_neg hs]
    have hle := Nat.not_lt.mp hs
    cases s.library.seed s.labelGroups with
    | error e' =>
      show (Except.error e' : Except Error Report) = _ ↔ _
      rw [Except.error.injEq, Except.error.injEq]
      exact ⟨fun h => .inr ⟨hle, h⟩, fun h => (h.resolve_left fun h => hs h.1).2⟩
    | ok seed => exact ⟨nofun, fun h => absurd (h.resolve_left fun h => hs h.1).2 nofun⟩

theorem exists_run_eq_ok_iff : (∃ r, s.run bytes = .ok r) ↔
    s.skip ≤ bytes.size ∧ ∀ g ∈ s.labelGroups, s.library.Stands g := by
  rw [← LabelLibrary.exists_seed_eq_ok_iff]
  constructor
  · rintro ⟨r, hr⟩
    obtain ⟨hs, seed, hseed, -⟩ := run_eq_ok_iff.mp hr
    exact ⟨hs, seed, hseed⟩
  · rintro ⟨hs, seed, hseed⟩
    exact ⟨s.report bytes seed, run_eq_ok_iff.mpr ⟨hs, seed, hseed, rfl⟩⟩

/-! ### The log of a run -/

/-- Both things that can be wrong are found before the first event. -/
theorem log_eq : s.log bytes =
    match s.run bytes with
    | .ok r => r.events
    | .error _ => [] := by
  rw [run_eq]
  unfold log perform
  split
  · rfl
  · cases s.library.seed s.labelGroups <;> rfl

theorem log_of_error {e : Error} (h : s.run bytes = .error e) : s.log bytes = [] := by
  rw [log_eq, h]

theorem log_of_ok {r : Report} (h : s.run bytes = .ok r) : s.log bytes = r.events := by
  rw [log_eq, h]

theorem events_report (seed : LabelMap) : (s.report bytes seed).events =
    .started (s.windowEnd bytes.size) s.architecture s.startAddress s.skip seed.toList.length ::
      ((s.architecture.decoder.listing { image := s.image bytes, offset := s.skip }).events ++
        [.finished (s.report bytes seed).instructions.length
          (s.report bytes seed).labels.toList.length]) := by
  have hsize : ∀ m : LabelMap, m.toList.length = m.size := fun _ => Std.TreeMap.length_toList
  rw [hsize, hsize, ← s.size_image]
  rfl

end Settings

/-- **When a run fails, and what it logs.**
* It fails because of the bytes to skip exactly if there are fewer bytes. Otherwise it fails because
  of a label group exactly if a list of groups was given, and this is the first of the list that is
  neither one of the words `all` and `none` in letters of either case nor a group of the library.
  In all other cases it gives a report.
* A run that fails logs nothing. One that gives a report logs its start first and its end last, with
  the numbers of instructions and names that it reports, and between them what the decoder reports.
  The window that it starts on is a part of the input and holds the bytes to skip. -/
theorem run_outcome (s : Settings) (bytes : Array UInt8) :
    let stop := if s.limit = 0 then bytes.size else min (s.skip + s.limit) bytes.size
    (∀ e, s.run bytes = .error e ↔
      bytes.size < s.skip ∧ e = .offsetOutOfRange s.skip bytes.size ∨
      s.skip ≤ bytes.size ∧ ∃ before g after, s.groups = some (before ++ g :: after) ∧
        (∀ m ∈ before, s.library.Stands m) ∧ ¬ s.library.Stands g ∧ e = .unknownLabelGroup g) ∧
    ((∃ r, s.run bytes = .ok r) ↔ s.skip ≤ bytes.size ∧
      ∀ groups, s.groups = some groups → ∀ g ∈ groups, s.library.Stands g) ∧
    (∀ e, s.run bytes = .error e → s.log bytes = []) ∧
    ∀ r, s.run bytes = .ok r → s.skip ≤ stop ∧ stop ≤ bytes.size ∧
      ∃ seed, s.library.seed s.labelGroups = .ok seed ∧
        let first : Event :=
          .started stop s.architecture s.startAddress s.skip seed.toList.length
        let last : Event := .finished r.instructions.length r.labels.toList.length
        let between := (s.architecture.decoder.listing
          { image := s.image bytes, offset := s.skip }).events
        s.log bytes = first :: (between ++ [last]) ∧
          first.level = .debug ∧ last.level = .debug ∧
          ∀ e ∈ between, s.architecture.decoder.reports e = true := by
  intro stop
  refine ⟨fun e => ?_, ?_, fun e => s.log_of_error bytes, fun r hr => ?_⟩
  · rw [s.run_eq_error_iff, s.seed_labelGroups_eq_error_iff]
  · rw [s.exists_run_eq_ok_iff, s.labelGroups_stand_iff]
  · rw [s.log_of_ok bytes hr]
    obtain ⟨hs, seed, hseed, rfl⟩ := Settings.run_eq_ok_iff.mp hr
    exact ⟨s.skip_le_windowEnd hs, s.windowEnd_le _, seed, hseed, s.events_report bytes seed, rfl,
      rfl, Decoder.reports_of_mem_listing _ _⟩

/-- A run that skips too much, one that asks for two groups that are not there, and one whose limit
does not fit behind the bytes to skip. -/
theorem run_outcome_limits :
    let bytes : Array UInt8 := #[0xEA, 0x20, 0x89, 0xF6]
    let library := LabelLibrary.empty.insert "ROM" "START" 0x0301
    let far : Settings := { architecture := .z80, skip := 5, groups := some ["rom"] }
    let unknown : Settings :=
      { architecture := .sweet16, library, groups := some ["ROM", "NONE", "rom", "ram"] }
    let whole : Settings :=
      { architecture := .switching6502, skip := 1, limit := 18446744073709551615, library }
    far.run bytes = .error (.offsetOutOfRange 5 4) ∧ far.log bytes = [] ∧
      unknown.run bytes = .error (.unknownLabelGroup "rom") ∧ unknown.log bytes = [] ∧
      ∃ r, whole.run bytes = .ok r ∧ whole.log bytes =
        [.started 4 .switching6502 0x0300 1 1, .switched .sweet16 0x0304,
          .finished r.instructions.length r.labels.toList.length] := by
  intro bytes library far unknown whole
  obtain ⟨hfar, -, hfarLog, -⟩ := run_outcome far bytes
  obtain ⟨hunknown, -, hunknownLog, -⟩ := run_outcome unknown bytes
  obtain ⟨-, hwhole, -, hwholeLog⟩ := run_outcome whole bytes
  have hnames : library.names = ["ROM"] := by cbv
  have hskip : far.run bytes = .error (.offsetOutOfRange 5 4) :=
    (hfar _).mpr (.inl ⟨by decide, rfl⟩)
  have hgroup : unknown.run bytes = .error (.unknownLabelGroup "rom") := by
    have hnone : "NONE".toLower = "none" := by cbv
    have hrom : "rom".toLower = "rom" := by cbv
    refine (hunknown _).mpr (.inr ⟨by decide, ["ROM", "NONE"], "rom", ["ram"], rfl, ?_, ?_, rfl⟩)
    · simp [unknown, LabelLibrary.Stands, hnames, hnone]
    · simp [unknown, LabelLibrary.Stands, hnames, hrom]
  have hgroups : ∀ groups, whole.groups = some groups → ∀ g ∈ groups, whole.library.Stands g := by
    intro groups h
    cases h
  obtain ⟨r, hr⟩ := hwhole.mpr ⟨by decide, hgroups⟩
  obtain ⟨-, -, seed, hseed, hlog, -⟩ := hwholeLog r hr
  have hcount : seed.toList.length = 1 := by
    have hone : (whole.library.seed whole.labelGroups).map (fun m => m.toList.length) = .ok 1 := by
      cbv
    rw [hseed] at hone
    exact Except.ok.inj hone
  have hevents : (whole.architecture.decoder.listing
      { image := whole.image bytes, offset := whole.skip }).events =
        [.switched .sweet16 0x0304] := by
    rw [Decoder.listing_step (by decide), Decoder.listing_step (by decide),
      Decoder.listing_done (by decide)]
    decide
  rw [hcount, hevents] at hlog
  exact ⟨hskip, hfarLog _ hskip, hgroup, hunknownLog _ hgroup, r, hr, hlog⟩

end Disassembly
