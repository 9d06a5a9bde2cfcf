import Disassembly.Proofs.Rendering
import Mathlib.Data.List.Forall2
import Mathlib.Data.List.TakeWhile
import Mathlib.Data.Nat.Digits.Defs

/-! # Texts that denote addresses

Which texts are read as addresses is said here by a grammar, with no order in which the alternatives
are tried: blanks at both ends, a mark for the radix, a plus sign or none, and digits. The marks of
radix sixteen and the decimal digits have nothing in common, so a text has only one reading.

* `Blank.trim_eq_iff`: what is left of a text without the blanks at its ends;
* `Numeral.digits?_eq_some_iff`, `Numeral.value?_eq_some_iff`: the value of a run of digits, without
  and with a sign;
* `Address.number?_eq_some_iff`: the number that a text spells. -/

namespace Disassembly

/-! ### Blanks at the ends -/

namespace Blank

/-- A text is another one without the blanks at its two ends. -/
def Trimmed (cs core : List Char) : Prop :=
  ∃ before after, cs = before ++ core ++ after ∧
    (∀ c ∈ before, isBlank c = true) ∧ (∀ c ∈ after, isBlank c = true) ∧
    (∀ c, core.head? = some c → isBlank c = false) ∧
    ∀ c, core.getLast? = some c → isBlank c = false

theorem isBlank_head?_dropWhile {cs : List Char} {c : Char}
    (h : (cs.dropWhile isBlank).head? = some c) : isBlank c = false := by
  have hnot := List.head?_dropWhile_not isBlank cs
  rw [h] at hnot
  exact hnot

theorem dropWhile_append {before rest : List Char} (hbefore : ∀ c ∈ before, isBlank c = true)
    (hrest : ∀ c, rest.head? = some c → isBlank c = false) :
    (before ++ rest).dropWhile isBlank = rest := by
  rw [List.dropWhile_append_of_pos hbefore]
  cases rest with
  | nil => rfl
  | cons c rest =>
    rw [List.dropWhile_cons, hrest c rfl]
    rfl

theorem trimmed_trim (cs : List Char) : Trimmed cs (trim cs) := by
  set rest := cs.dropWhile isBlank with hrest
  have hparts : rest = trim cs ++ (rest.reverse.takeWhile isBlank).reverse := by
    show rest = (rest.reverse.dropWhile isBlank).reverse ++ _
    rw [← List.reverse_append, List.takeWhile_append_dropWhile, List.reverse_reverse]
  refine ⟨cs.takeWhile isBlank, (rest.reverse.takeWhile isBlank).reverse, ?_,
    fun c hc => List.mem_takeWhile_imp hc,
    fun c hc => List.mem_takeWhile_imp (List.mem_reverse.mp hc), fun c hc => ?_, fun c hc => ?_⟩
  · rw [List.append_assoc, ← hparts, hrest, List.takeWhile_append_dropWhile]
  · have hhead : rest.head? = some c := by
      rw [hparts, List.head?_append, hc, Option.some_or]
    exact isBlank_head?_dropWhile hhead
  · have hlast : (rest.reverse.dropWhile isBlank).head? = some c := by
      rw [← List.getLast?_reverse]
      exact hc
    exact isBlank_head?_dropWhile hlast

/-- The characters between the blanks at the ends are those that are left. -/
theorem trim_eq_iff {cs core : List Char} : trim cs = core ↔ Trimmed cs core := by
  constructor
  · rintro rfl
    exact trimmed_trim cs
  · rintro ⟨before, after, rfl, hbefore, hafter, hhead, hlast⟩
    rcases core with _ | ⟨c, core⟩
    · have hnone : (before ++ [] ++ after).dropWhile isBlank = [] := by
        rw [List.append_nil, ← List.append_nil (before ++ after)]
        refine dropWhile_append (fun c hc => ?_) (by simp)
        exact (List.mem_append.mp hc).elim (hbefore c) (hafter c)
      unfold trim
      rw [hnone]
      rfl
    · have hfront : (before ++ c :: core ++ after).dropWhile isBlank = c :: core ++ after := by
        rw [List.append_assoc]
        refine dropWhile_append hbefore fun d hd => hhead d ?_
        rw [← hd]
        rfl
      unfold trim
      rw [hfront, List.reverse_append, dropWhile_append, List.reverse_reverse]
      · exact fun d hd => hafter d (List.mem_reverse.mp hd)
      · intro d hd
        rw [List.head?_reverse] at hd
        exact hlast d hd

end Blank

/-! ### Digits -/

namespace Numeral

/-- A character is the digit of a value: its place among the digits of the radix, where letters may
be of either case. -/
def IsDigit (radix : Nat) (c : Char) (n : Nat) : Prop :=
  n < radix ∧ hexDigits.idxOf? c.toUpper = some n

/-- A run of at least one digit has a value in the radix, the leading digit first. -/
def Denotes (radix : Nat) (cs : List Char) (v : Nat) : Prop :=
  cs ≠ [] ∧ ∃ ds, List.Forall₂ (IsDigit radix) cs ds ∧ v = Nat.ofDigits radix ds.reverse

set_option maxRecDepth 2000 in
theorem rank?_ofNat : ∀ k < 128, (rank? (Char.ofNat k)).filter (· < 16) =
    hexDigits.idxOf? (Char.ofNat k).toUpper := by decide

theorem toNat_lt_of_rank? {c : Char} {n : Nat} (h : rank? c = some n) : c.toNat < 128 := by
  have hle : ∀ {d : Char}, c ≤ d → c.toNat ≤ d.toNat := fun h => UInt32.le_iff_toNat_le.mp h
  unfold rank? at h
  split at h
  · next hc => exact Nat.lt_of_le_of_lt (hle hc.2) (by decide)
  · split at h
    · next hc => exact Nat.lt_of_le_of_lt (hle hc.2) (by decide)
    · split at h
      · next hc => exact Nat.lt_of_le_of_lt (hle hc.2) (by decide)
      · cases h

theorem toNat_lt_of_toUpper_mem {c : Char} (h : c.toUpper ∈ hexDigits) : c.toNat < 128 := by
  have hdigits : hexDigits.all (fun d => d.toNat < 128) = true := by decide
  unfold Char.toUpper at h
  split at h
  · next hc => exact Nat.lt_of_le_of_lt (UInt32.le_iff_toNat_le.mp hc.2) (by decide)
  · simpa using List.all_eq_true.mp hdigits c h

theorem filter_rank? (c : Char) : (rank? c).filter (· < 16) = hexDigits.idxOf? c.toUpper := by
  by_cases hc : c.toNat < 128
  · have h := rank?_ofNat c.toNat hc
    rwa [Char.ofNat_toNat] at h
  · have hrank : rank? c = none :=
      Option.eq_none_iff_forall_ne_some.mpr fun n hn => hc (toNat_lt_of_rank? hn)
    have hidx : hexDigits.idxOf? c.toUpper = none :=
      List.idxOf?_eq_none_iff.mpr fun hmem => hc (toNat_lt_of_toUpper_mem hmem)
    rw [hrank, hidx]
    rfl

theorem digit?_eq_some_iff {radix : Nat} (hr : radix ≤ 16) {c : Char} {n : Nat} :
    digit? radix c = some n ↔ IsDigit radix c n := by
  unfold digit? IsDigit
  rw [← filter_rank?, Option.filter_eq_some_iff, Option.filter_eq_some_iff, decide_eq_true_eq,
    decide_eq_true_eq]
  constructor
  · rintro ⟨hrank, hn⟩
    exact ⟨hn, hrank, by omega⟩
  · rintro ⟨hn, hrank, -⟩
    exact ⟨hrank, hn⟩

theorem mapM_eq_some_iff {f : Char → Option Nat} : ∀ {cs : List Char} {ds : List Nat},
    cs.mapM f = some ds ↔ List.Forall₂ (fun c d => f c = some d) cs ds
  | [], ds => by
    rw [List.mapM_nil, List.forall₂_nil_left_iff]
    exact ⟨fun h => (Option.some.inj h).symm, fun h => congrArg some h.symm⟩
  | c :: cs, ds => by
    rw [List.mapM_cons, List.forall₂_cons_left_iff]
    constructor
    · intro h
      obtain ⟨d, hd, h⟩ := Option.bind_eq_some_iff.mp h
      obtain ⟨ds', hds, h⟩ := Option.bind_eq_some_iff.mp h
      exact ⟨d, ds', hd, mapM_eq_some_iff.mp hds, (Option.some.inj h).symm⟩
    · rintro ⟨d, ds', hd, hds, rfl⟩
      rw [hd, mapM_eq_some_iff.mpr hds]
      rfl

theorem foldl_eq (radix : Nat) : ∀ (ds : List Nat) (n : Nat),
    ds.foldl (fun n d => n * radix + d) n = n * radix ^ ds.length + Nat.ofDigits radix ds.reverse
  | [], n => by simp
  | d :: ds, n => by
    rw [List.foldl_cons, foldl_eq radix ds, Nat.ofDigits_reverse_cons, List.length_cons]
    ring

theorem ofDigits_eq (radix : Nat) (ds : List Nat) :
    ofDigits radix ds = Nat.ofDigits radix ds.reverse := by
  unfold ofDigits
  rw [foldl_eq, Nat.zero_mul, Nat.zero_add]

theorem digits?_eq_some_iff {radix : Nat} (hr : radix ≤ 16) {cs : List Char} {v : Nat} :
    digits? radix cs = some v ↔ Denotes radix cs v := by
  have hrel : (fun c d => digit? radix c = some d) = IsDigit radix := by
    funext c d
    exact propext (digit?_eq_some_iff hr)
  unfold digits? Denotes
  rcases cs with _ | ⟨c, cs⟩
  · constructor
    · intro h; cases h
    · intro h; exact absurd rfl h.1
  · rw [if_neg (by simp), Option.map_eq_some_iff, ← hrel]
    simp only [mapM_eq_some_iff, ofDigits_eq]
    constructor
    · rintro ⟨ds, hds, rfl⟩
      exact ⟨List.cons_ne_nil _ _, ds, hds, rfl⟩
    · rintro ⟨-, ds, hds, rfl⟩
      exact ⟨ds, hds, rfl⟩

/-- A sign is a plus sign or none. -/
def IsSign (sign : List Char) : Prop := sign = [] ∨ sign = ['+']

theorem Denotes.isDigit_of_mem {radix : Nat} {cs : List Char} {v : Nat} (h : Denotes radix cs v)
    {c : Char} (hc : c ∈ cs) : ∃ n, IsDigit radix c n := by
  obtain ⟨-, ds, hds, -⟩ := h
  induction hds with
  | nil => cases hc
  | cons hcd _ ih =>
    rcases List.mem_cons.mp hc with rfl | hc
    · exact ⟨_, hcd⟩
    · exact ih hc

/-- Only the digits have a place among the digits. -/
theorem Denotes.ne_of_mem {radix : Nat} {cs : List Char} {v : Nat} (h : Denotes radix cs v)
    {c d : Char} (hc : c ∈ cs) (hd : hexDigits.idxOf? d.toUpper = none) : c ≠ d := by
  rintro rfl
  obtain ⟨n, -, hn⟩ := h.isDigit_of_mem hc
  rw [hd] at hn
  cases hn

theorem value?_eq_some_iff {radix : Nat} (hr : radix ≤ 16) {cs : List Char} {v : Nat} :
    value? radix cs = some v ↔
      ∃ sign digits, cs = sign ++ digits ∧ IsSign sign ∧ Denotes radix digits v := by
  constructor
  · intro h
    unfold value? at h
    split at h
    · next digits => exact ⟨['+'], digits, rfl, .inr rfl, (digits?_eq_some_iff hr).mp h⟩
    · exact ⟨[], cs, rfl, .inl rfl, (digits?_eq_some_iff hr).mp h⟩
  · rintro ⟨sign, digits, rfl, hsign, hdigits⟩
    have hvalue := (digits?_eq_some_iff hr).mpr hdigits
    rcases hsign with rfl | rfl
    · rcases digits with _ | ⟨c, digits⟩
      · exact absurd rfl hdigits.1
      · have hplus : c ≠ '+' := hdigits.ne_of_mem List.mem_cons_self (by decide)
        rw [List.nil_append, value?_of_ne_plus hplus, hvalue]
    · exact hvalue

end Numeral

/-! ### Numbers with a mark of their radix -/

namespace Address

/-- A mark in front of a number tells its radix: a dollar sign or `0x` in letters of either case
stands for sixteen, and no mark for ten. -/
def Marks (mark : List Char) (radix : Nat) : Prop :=
  (mark = ['$'] ∨ mark = ['0', 'x'] ∨ mark = ['0', 'X']) ∧ radix = 16 ∨ mark = [] ∧ radix = 10

/-- A text spells a number: a mark of the radix, a plus sign or none, and digits. -/
def Spells (cs : List Char) (v : Nat) : Prop :=
  ∃ mark sign digits radix, cs = mark ++ sign ++ digits ∧ Marks mark radix ∧
    Numeral.IsSign sign ∧ Numeral.Denotes radix digits v

theorem Marks.radix_le {mark : List Char} {radix : Nat} (h : Marks mark radix) : radix ≤ 16 := by
  rcases h with ⟨-, rfl⟩ | ⟨-, rfl⟩ <;> decide

theorem spells_of_value? (mark : List Char) {rest : List Char} {radix v : Nat}
    (hmark : Marks mark radix) (h : Numeral.value? radix rest = some v) :
    Spells (mark ++ rest) v := by
  obtain ⟨sign, digits, rfl, hsign, hdigits⟩ := (Numeral.value?_eq_some_iff hmark.radix_le).mp h
  exact ⟨mark, sign, digits, radix, (List.append_assoc _ _ _).symm, hmark, hsign, hdigits⟩

/-- Without a mark nothing is taken for one. -/
theorem number?_of_no_mark {cs : List Char} (h : ∀ c ∈ cs, c ≠ '$' ∧ c ≠ 'x' ∧ c ≠ 'X') :
    number? cs = Numeral.value? 10 cs := by
  unfold number?
  split
  · exact absurd rfl (h '$' List.mem_cons_self).1
  · exact absurd rfl (h 'x' (List.mem_cons_of_mem _ List.mem_cons_self)).2.1
  · exact absurd rfl (h 'X' (List.mem_cons_of_mem _ List.mem_cons_self)).2.2
  · rfl

/-- **The number that a text without outer blanks denotes is the one that it spells.** -/
theorem number?_eq_some_iff {cs : List Char} {v : Nat} : number? cs = some v ↔ Spells cs v := by
  constructor
  · intro h
    unfold number? at h
    split at h
    · exact spells_of_value? ['$'] (.inl ⟨.inl rfl, rfl⟩) h
    · exact spells_of_value? ['0', 'x'] (.inl ⟨.inr (.inl rfl), rfl⟩) h
    · exact spells_of_value? ['0', 'X'] (.inl ⟨.inr (.inr rfl), rfl⟩) h
    · exact spells_of_value? [] (.inr ⟨rfl, rfl⟩) h
  · rintro ⟨mark, sign, digits, radix, rfl, hmark, hsign, hdigits⟩
    have hvalue : Numeral.value? radix (sign ++ digits) = some v :=
      (Numeral.value?_eq_some_iff hmark.radix_le).mpr ⟨sign, digits, rfl, hsign, hdigits⟩
    rcases hmark with ⟨rfl | rfl | rfl, rfl⟩ | ⟨rfl, rfl⟩
    · exact hvalue
    · exact hvalue
    · exact hvalue
    · rw [List.nil_append, number?_of_no_mark, hvalue]
      intro c hc
      rcases List.mem_append.mp hc with hc | hc
      · rcases hsign with rfl | rfl
        · cases hc
        · obtain rfl := List.mem_singleton.mp hc
          decide
      · exact ⟨hdigits.ne_of_mem hc (by decide), hdigits.ne_of_mem hc (by decide),
          hdigits.ne_of_mem hc (by decide)⟩

theorem parse?_eq_some_iff {text : String} {a : Address} :
    parse? text = some a ↔ ∃ core, Blank.Trimmed text.toList core ∧ Spells core a.toNat := by
  have hnumber : parse? text = some a ↔ number? (Blank.trim text.toList) = some a.toNat := by
    unfold parse?
    rw [Option.map_eq_some_iff]
    constructor
    · rintro ⟨v, hv, rfl⟩
      obtain ⟨hv, hlt⟩ := Option.filter_eq_some_iff.mp hv
      rw [hv, UInt16.toNat_ofNat_of_lt' (of_decide_eq_true hlt)]
    · intro hv
      refine ⟨a.toNat, Option.filter_eq_some_iff.mpr ⟨hv, decide_eq_true a.toNat_lt⟩, ?_⟩
      exact UInt16.ofNat_toNat
  rw [hnumber, number?_eq_some_iff]
  constructor
  · exact fun h => ⟨_, Blank.trimmed_trim _, h⟩
  · rintro ⟨core, hcore, h⟩
    rwa [Blank.trim_eq_iff.mpr hcore]

theorem parse_of_parse? {text : String} {a : Address} (h : parse? text = some a) :
    parse text = .ok a := by
  unfold parse
  rw [h]

theorem parse_of_parse?_eq_none {text : String} (h : parse? text = none) :
    parse text = .error (.invalidAddress text) := by
  unfold parse
  rw [h]

/-- **Which texts are addresses.** A text is read as an address exactly if, without the blanks at
its ends, it is a mark of a radix, a plus sign or none, and at least one digit of the radix, with a
value of at most 65535; the address is this value. Every other text is refused, and the complaint
has the text as it was given. -/
theorem parse_accepts_exactly (text : String) :
    (∀ a : Address, parse text = .ok a ↔
      ∃ core, Blank.Trimmed text.toList core ∧ Spells core a.toNat) ∧
    ∀ e, parse text = .error e ↔ e = .invalidAddress text ∧
      ¬ ∃ core v, Blank.Trimmed text.toList core ∧ Spells core v ∧ v ≤ 65535 := by
  have hsome : ∀ a, parse? text = some a ↔
      ∃ core, Blank.Trimmed text.toList core ∧ Spells core a.toNat := fun a => parse?_eq_some_iff
  cases hparse : parse? text with
  | some b =>
    obtain ⟨core, hcore, hspells⟩ := (hsome b).mp hparse
    have hb := b.toNat_lt
    rw [parse_of_parse? hparse]
    refine ⟨fun a => ?_, fun e => ⟨fun h => ?_, fun h => ?_⟩⟩
    · rw [← hsome a, hparse, Except.ok.injEq, Option.some.injEq]
    · cases h
    · exact absurd ⟨core, b.toNat, hcore, hspells, by omega⟩ h.2
  | none =>
    rw [parse_of_parse?_eq_none hparse]
    refine ⟨fun a => ⟨fun h => ?_, fun h => ?_⟩, fun e => ⟨fun h => ?_, fun h => ?_⟩⟩
    · cases h
    · rw [(hsome a).mpr h] at hparse
      cases hparse
    · refine ⟨(Except.error.inj h).symm, ?_⟩
      rintro ⟨core, v, hcore, hspells, hv⟩
      have hv' : (UInt16.ofNat v).toNat = v := UInt16.toNat_ofNat_of_lt' (Nat.lt_succ_of_le hv)
      have hread := (hsome (UInt16.ofNat v)).mpr ⟨core, hcore, hv'.symm ▸ hspells⟩
      rw [hread] at hparse
      cases hparse
    · rw [h.1]

example : parse "\u3000$+000fFfF\t" = .ok 0xFFFF := by decide

end Address

end Disassembly
