import Mathlib
import Disassembly.Proofs.Labels

/-! # Label groups

A library is built by calls that put a name for an address into a group; a call whose address is a
text that denotes none fails, and leaves the library as it is. What the library then answers is said
here in terms of the calls:

* `LabelLibrary.nameIn_ofAdditions`: a group holds for an address the last name put for it;
* `LabelLibrary.mem_names_ofAdditions`: the groups are those that some name was put into;
* `LabelLibrary.select_of_stands`, `LabelLibrary.select_eq_error_iff`: the groups that a list of
  requests stands for, or the first request that stands for nothing;
* `LabelLibrary.get?_ofList_entries`: the names that a list of groups gives. -/

namespace Disassembly

/-! ### Letters of either case -/

theorem toUpper_eq_iff (c d : Char) : c.toUpper = d.toUpper ↔ c.toLower = d.toLower := by
  constructor
  · intro h
    rw [← Char.toLower_toUpper_eq_toLower c, h, Char.toLower_toUpper_eq_toLower]
  · intro h
    rw [← Char.toUpper_toLower_eq_toUpper c, h, Char.toUpper_toLower_eq_toUpper]

theorem map_toUpper_eq_iff : ∀ cs ds : List Char,
    cs.map Char.toUpper = ds.map Char.toUpper ↔ cs.map Char.toLower = ds.map Char.toLower
  | [], [] => Iff.rfl
  | [], _ :: _ | _ :: _, [] => by simp
  | c :: cs, d :: ds => by
    rw [List.map_cons, List.map_cons, List.map_cons, List.map_cons, List.cons.injEq,
      List.cons.injEq, toUpper_eq_iff, map_toUpper_eq_iff cs ds]

namespace LabelLibrary

theorem sameLetters_iff (s t : String) : sameLetters s t = true ↔ s.toLower = t.toLower := by
  unfold sameLetters
  rw [beq_iff_eq, ← String.toList_inj, ← String.toList_inj]
  unfold String.toUpper String.toLower
  rw [String.toList_map, String.toList_map, String.toList_map, String.toList_map]
  exact map_toUpper_eq_iff _ _

end LabelLibrary

/-! ### The calls that build a library -/

/-- A call that puts a name for an address into a group. -/
inductive Addition where
  | insert (group name : String) (a : Address)
  | insertParsed (group name text : String)

/-- The name that a call puts for an address into a group, if it does. -/
def Addition.nameFor (group : String) (a : Address) : Addition → Option String
  | insert g name b => if g = group ∧ b = a then some name else none
  | insertParsed g name text =>
    if g = group ∧ Address.parse? text = some a then some name else none

namespace LabelLibrary

variable {l : LabelLibrary}

/-- The library after a call; a call that fails leaves it as it is. -/
def add (l : LabelLibrary) : Addition → LabelLibrary
  | .insert group name a => l.insert group name a
  | .insertParsed group name text =>
    match l.insertParsed group name text with
    | .ok l' => l'
    | .error _ => l

/-- The library that a list of calls builds. -/
def ofAdditions (xs : List Addition) : LabelLibrary := xs.foldl add empty

/-- The name that a group holds for an address. -/
def nameIn (l : LabelLibrary) (group : String) (a : Address) : Option String :=
  (l.group? group).bind fun m => m.get? a

theorem group?_insert (l : LabelLibrary) (g name h : String) (a : Address) :
    (l.insert g name a).group? h =
      if g = h then some (((l.group? g).getD .empty).put a name) else l.group? h := by
  unfold insert group?
  rw [Std.TreeMap.getElem?_insert]
  simp only [Std.LawfulEqCmp.compare_eq_iff_eq]

theorem nameIn_insert (l : LabelLibrary) (g name h : String) (a b : Address) :
    (l.insert g name a).nameIn h b = if g = h ∧ a = b then some name else l.nameIn h b := by
  unfold nameIn
  rw [group?_insert]
  by_cases hg : g = h
  · subst hg
    rw [if_pos rfl, Option.bind_some, LabelMap.get?_put]
    by_cases ha : a = b
    · rw [if_pos ha, if_pos ⟨rfl, ha⟩]
    · rw [if_neg ha, if_neg fun h => ha h.2]
      cases l.group? g <;> simp
  · rw [if_neg hg, if_neg fun h => hg h.1]

theorem mem_names_iff {g : String} : g ∈ l.names ↔ (l.group? g).isSome = true := by
  unfold names group?
  rw [Std.TreeMap.mem_keys, Std.TreeMap.mem_iff_isSome_getElem?]

theorem mem_names_insert {g name h : String} {a : Address} :
    h ∈ (l.insert g name a).names ↔ h ∈ l.names ∨ g = h := by
  rw [mem_names_iff, mem_names_iff, group?_insert]
  by_cases hg : g = h
  · simp [hg]
  · simp [hg]

theorem insertParsed_eq (l : LabelLibrary) (g name text : String) :
    l.insertParsed g name text = match Address.parse? text with
      | some a => .ok (l.insert g name a)
      | none => .error (.invalidAddress text) := by
  unfold insertParsed Address.parse
  cases Address.parse? text <;> rfl

/-- **One call**: the name that it puts counts, and else the name that was there. -/
theorem nameIn_add (l : LabelLibrary) (x : Addition) (g : String) (a : Address) :
    (l.add x).nameIn g a = (x.nameFor g a).or (l.nameIn g a) := by
  cases x with
  | insert h name b =>
    simp only [add, Addition.nameFor, nameIn_insert]
    by_cases hx : h = g ∧ b = a <;> simp [hx]
  | insertParsed h name text =>
    simp only [add, Addition.nameFor, insertParsed_eq]
    cases Address.parse? text with
    | none => simp
    | some b =>
      simp only [nameIn_insert, Option.some.injEq]
      by_cases hx : h = g ∧ b = a <;> simp [hx]

theorem mem_names_add {x : Addition} {g : String} :
    g ∈ (l.add x).names ↔ g ∈ l.names ∨ ∃ a, x.nameFor g a ≠ none := by
  cases x with
  | insert h name b =>
    simp only [add, Addition.nameFor, mem_names_insert]
    by_cases hg : h = g <;> simp [hg]
  | insertParsed h name text =>
    simp only [add, Addition.nameFor, insertParsed_eq]
    cases Address.parse? text with
    | none => simp
    | some b =>
      simp only [mem_names_insert, Option.some.injEq]
      by_cases hg : h = g <;> simp [hg]

/-- A group holds for an address the last name that was put for it. -/
theorem nameIn_ofAdditions (xs : List Addition) (g : String) (a : Address) :
    (ofAdditions xs).nameIn g a = xs.reverse.findSome? (Addition.nameFor g a) := by
  unfold ofAdditions
  -- From the end of the calls on, since the last one is asked first.
  induction xs using List.reverseRecOn with
  | nil => simp [nameIn, group?, empty]
  | append_singleton xs x ih =>
    rw [List.foldl_append, List.foldl_cons, List.foldl_nil, nameIn_add, ih, List.reverse_append,
      List.reverse_singleton, List.singleton_append, List.findSome?_cons]
    cases x.nameFor g a <;> rfl

theorem mem_names_ofAdditions (xs : List Addition) (g : String) :
    g ∈ (ofAdditions xs).names ↔ ∃ x ∈ xs, ∃ a, x.nameFor g a ≠ none := by
  unfold ofAdditions
  induction xs using List.reverseRecOn with
  | nil => simp [mem_names_iff, group?, empty]
  | append_singleton xs x ih =>
    rw [List.foldl_append, List.foldl_cons, List.foldl_nil, mem_names_add, ih]
    simp only [List.mem_append, List.mem_singleton, or_and_right, exists_or, exists_eq_left]

theorem pairwise_names (l : LabelLibrary) : l.names.Pairwise (· < ·) := by
  have hkeys : l.groups.keys.Pairwise fun g h => compare g h = .lt := Std.TreeMap.ordered_keys
  exact hkeys.imp fun h => compareOfLessAndEq_eq_lt.mp h

/-! ### Requests -/

/-- A request stands for something: for all groups, for none, or for the group of its name. -/
def Stands (l : LabelLibrary) (request : String) : Prop :=
  request.toLower = "all" ∨ request.toLower = "none" ∨ request ∈ l.names

/-- The groups that a request stands for, if `names` are all groups. -/
def groupsOf (names : List String) (request : String) : List String :=
  if request.toLower = "all" then names
  else if request.toLower = "none" then []
  else [request]

theorem sameLetters_all (request : String) :
    sameLetters request "All" = true ↔ request.toLower = "all" := by
  rw [sameLetters_iff, show "All".toLower = "all" by cbv]

theorem sameLetters_none (request : String) :
    sameLetters request "None" = true ↔ request.toLower = "none" := by
  rw [sameLetters_iff, show "None".toLower = "none" by cbv]

theorem contains_iff {g : String} : l.groups.contains g = true ↔ g ∈ l.names := by
  unfold names
  rw [Std.TreeMap.mem_keys, Std.TreeMap.mem_iff_contains]

theorem expand_of_stands {request : String} (h : l.Stands request) :
    l.expand request = .ok (groupsOf l.names request) := by
  unfold expand groupsOf
  simp only [sameLetters_all, sameLetters_none, contains_iff]
  by_cases hnone : request.toLower = "none"
  · have hall : request.toLower ≠ "all" := by rw [hnone]; decide
    rw [if_pos hnone, if_neg hall, if_pos hnone]
  · by_cases hall : request.toLower = "all"
    · rw [if_neg hnone, if_pos hall, if_pos hall]
    · have hmem : request ∈ l.names := (h.resolve_left hall).resolve_left hnone
      rw [if_neg hnone, if_neg hall, if_pos hmem, if_neg hall, if_neg hnone]

theorem expand_of_not_stands {request : String} (h : ¬ l.Stands request) :
    l.expand request = .error (.unknownLabelGroup request) := by
  obtain ⟨hall, hrest⟩ := not_or.mp h
  obtain ⟨hnone, hmem⟩ := not_or.mp hrest
  unfold expand
  simp only [sameLetters_all, sameLetters_none, contains_iff]
  rw [if_neg hnone, if_neg hall, if_neg hmem]

/-- Requests up to the first one that stands for nothing. -/
theorem stands_or_exists (l : LabelLibrary) (requests : List String) :
    (∀ n ∈ requests, l.Stands n) ∨ ∃ before n after, requests = before ++ n :: after ∧
      (∀ m ∈ before, l.Stands m) ∧ ¬ l.Stands n := by
  induction requests with
  | nil => exact Or.inl (List.forall_mem_nil _)
  | cons n rest ih =>
    by_cases hn : l.Stands n
    · rcases ih with ih | ⟨before, m, after, rfl, hbefore, hm⟩
      · exact Or.inl (List.forall_mem_cons.mpr ⟨hn, ih⟩)
      · exact Or.inr ⟨n :: before, m, after, rfl, List.forall_mem_cons.mpr ⟨hn, hbefore⟩, hm⟩
    · exact Or.inr ⟨[], n, rest, rfl, List.forall_mem_nil _, hn⟩

theorem mapM_expand_of_stands : ∀ {requests : List String}, (∀ n ∈ requests, l.Stands n) →
    requests.mapM l.expand = .ok (requests.map (groupsOf l.names))
  | [], _ => rfl
  | n :: requests, h => by
    obtain ⟨hn, hrest⟩ := List.forall_mem_cons.mp h
    rw [List.mapM_cons, expand_of_stands hn, mapM_expand_of_stands hrest]
    rfl

theorem mapM_expand_of_not_stands {n : String} {after : List String} (hn : ¬ l.Stands n) :
    ∀ {before : List String}, (∀ m ∈ before, l.Stands m) →
      (before ++ n :: after).mapM l.expand = .error (.unknownLabelGroup n)
  | [], _ => by
    rw [List.nil_append, List.mapM_cons, expand_of_not_stands hn]
    rfl
  | m :: before, h => by
    obtain ⟨hm, hbefore⟩ := List.forall_mem_cons.mp h
    rw [List.cons_append, List.mapM_cons, expand_of_stands hm,
      mapM_expand_of_not_stands hn hbefore]
    rfl

/-- Each name of a list once, in the order in which they come first. -/
structure FirstOccurrences (all gs : List String) : Prop where
  mem : ∀ g, g ∈ gs ↔ g ∈ all
  order : gs.Pairwise fun g h => all.idxOf g < all.idxOf h

theorem firstOccurrences_eraseDups (all : List String) : FirstOccurrences all all.eraseDups := by
  refine ⟨fun g => List.mem_eraseDups, ?_⟩
  -- A name at the end changes nothing if it came before, and else comes behind all others.
  induction all using List.reverseRecOn with
  | nil => exact List.Pairwise.nil
  | append_singleton all g ih =>
    have hold : all.eraseDups.Pairwise fun g' h => (all ++ [g]).idxOf g' < (all ++ [g]).idxOf h := by
      refine ih.imp_of_mem fun {g' h} hg' hh hlt => ?_
      rw [List.idxOf_append_of_mem (List.mem_eraseDups.mp hg'),
        List.idxOf_append_of_mem (List.mem_eraseDups.mp hh)]
      exact hlt
    have hnew : [g].removeAll all = if g ∈ all then [] else [g] := by
      simp [List.removeAll, List.filter_cons]
    rw [List.eraseDups_append, hnew]
    by_cases hg : g ∈ all
    · rw [if_pos hg, List.eraseDups_nil, List.append_nil]
      exact hold
    · rw [if_neg hg, List.eraseDups_cons, List.filter_nil, List.eraseDups_nil, List.pairwise_append]
      refine ⟨hold, List.pairwise_singleton _ _, fun g' hg' h hh => ?_⟩
      obtain rfl := List.mem_singleton.mp hh
      have hmem := List.mem_eraseDups.mp hg'
      rw [List.idxOf_append_of_mem hmem, List.idxOf_append_of_notMem hg]
      have := List.idxOf_lt_length_of_mem hmem
      omega

/-- Requests that all stand for something give their groups, each where it comes first. -/
theorem select_of_stands {requests : List String} (h : ∀ n ∈ requests, l.Stands n) :
    ∃ gs, l.select requests = .ok gs ∧
      FirstOccurrences (requests.flatMap (groupsOf l.names)) gs := by
  unfold select
  rw [mapM_expand_of_stands h]
  exact ⟨_, rfl, firstOccurrences_eraseDups _⟩

theorem select_eq_error_iff (l : LabelLibrary) (requests : List String) (e : Error) :
    l.select requests = .error e ↔ ∃ before n after, requests = before ++ n :: after ∧
      (∀ m ∈ before, l.Stands m) ∧ ¬ l.Stands n ∧ e = .unknownLabelGroup n := by
  constructor
  · intro he
    rcases l.stands_or_exists requests with h | ⟨before, n, after, rfl, hbefore, hn⟩
    · obtain ⟨gs, hgs, -⟩ := select_of_stands h
      rw [hgs] at he
      cases he
    · unfold select at he
      rw [mapM_expand_of_not_stands hn hbefore] at he
      cases he
      exact ⟨before, n, after, rfl, hbefore, hn, rfl⟩
  · rintro ⟨before, n, after, rfl, hbefore, hn, rfl⟩
    unfold select
    rw [mapM_expand_of_not_stands hn hbefore]
    rfl

end LabelLibrary

/-! ### The names that groups give -/

theorem LabelMap.lookup_toList (m : LabelMap) (a : Address) : m.toList.lookup a = m.get? a := by
  have hmem : ∀ name, (a, name) ∈ m.toList ↔ m.get? a = some name :=
    fun name => Std.TreeMap.mem_toList_iff_getElem?_eq_some
  cases hlookup : m.toList.lookup a with
  | some name =>
    obtain ⟨before, after, hlist, -⟩ := List.lookup_eq_some_iff.mp hlookup
    exact ((hmem name).mp (by rw [hlist]; exact List.mem_append_right _ List.mem_cons_self)).symm
  | none =>
    refine (Option.eq_none_iff_forall_ne_some.mpr fun name hname => ?_).symm
    have hne := List.lookup_eq_none_iff.mp hlookup (a, name) ((hmem name).mpr hname)
    exact absurd hne (by simp)

namespace LabelLibrary

theorem lookup_entries (l : LabelLibrary) (g : String) (a : Address) :
    (l.entries g).lookup a = l.nameIn g a := by
  unfold entries nameIn
  rw [LabelMap.lookup_toList]
  cases l.group? g <;> simp

theorem lookup_flatMap_entries (l : LabelLibrary) (a : Address) : ∀ gs : List String,
    (gs.flatMap l.entries).lookup a = gs.findSome? fun g => l.nameIn g a
  | [] => rfl
  | g :: gs => by
    rw [List.flatMap_cons, List.lookup_append, lookup_entries, lookup_flatMap_entries l a gs,
      List.findSome?_cons]
    cases l.nameIn g a <;> rfl

/-- Of the groups that have a name for an address, the first gives it. -/
theorem get?_ofList_entries (l : LabelLibrary) (gs : List String) (a : Address) :
    (LabelMap.ofList (gs.flatMap l.entries)).get? a = gs.findSome? fun g => l.nameIn g a := by
  unfold LabelMap.ofList
  rw [LabelMap.get?_recordAll, LabelMap.get?_empty, Option.none_or, lookup_flatMap_entries]

theorem seed_eq_error_iff (l : LabelLibrary) (requests : List String) (e : Error) :
    l.seed requests = .error e ↔ l.select requests = .error e := by
  unfold seed
  cases l.select requests with
  | ok gs => exact ⟨nofun, nofun⟩
  | error e' =>
    show (Except.error e' : Except Error LabelMap) = _ ↔ _
    rw [Except.error.injEq, Except.error.injEq]

end LabelLibrary

/-- **Selecting groups and seeding names.** In a library built by any calls, where calls that fail
change nothing, the groups are those that a name was put into, in their order as texts, and a group
holds for each address the last name put for it.
* A selection fails exactly if some request stands for nothing, and names the first such request.
  Otherwise it is what the requests stand for one after the other, each group where it comes first.
* Seeding fails exactly as the selection does. Otherwise an address has the name that the first
  selected group with a name for it holds, and no other address has a name. -/
theorem select_seed (xs : List Addition) (requests : List String) :
    let l := LabelLibrary.ofAdditions xs
    (l.names.Pairwise (· < ·) ∧ ∀ g, g ∈ l.names ↔ ∃ x ∈ xs, ∃ a, x.nameFor g a ≠ none) ∧
    (∀ g a, (l.group? g).bind (fun m => m.get? a) =
      xs.reverse.findSome? (Addition.nameFor g a)) ∧
    (∀ g name text e, l.insertParsed g name text = .error e →
      LabelLibrary.ofAdditions (xs ++ [.insertParsed g name text]) = l) ∧
    (∀ e, l.select requests = .error e ↔ ∃ before n after, requests = before ++ n :: after ∧
      (∀ m ∈ before, l.Stands m) ∧ ¬ l.Stands n ∧ e = .unknownLabelGroup n) ∧
    ((∀ n ∈ requests, l.Stands n) → ∃ gs, l.select requests = .ok gs ∧
      LabelLibrary.FirstOccurrences (requests.flatMap (LabelLibrary.groupsOf l.names)) gs) ∧
    (∀ e, l.seed requests = .error e ↔ l.select requests = .error e) ∧
    ∀ gs, l.select requests = .ok gs → ∃ m, l.seed requests = .ok m ∧
      ∀ a, m.get? a = gs.findSome? fun g => xs.reverse.findSome? (Addition.nameFor g a) := by
  intro l
  have hname := LabelLibrary.nameIn_ofAdditions xs
  refine ⟨⟨l.pairwise_names, LabelLibrary.mem_names_ofAdditions xs⟩, hname, ?_,
    l.select_eq_error_iff requests, LabelLibrary.select_of_stands, l.seed_eq_error_iff requests, ?_⟩
  · intro g name text e he
    unfold LabelLibrary.ofAdditions
    rw [List.foldl_append, List.foldl_cons, List.foldl_nil, LabelLibrary.add]
    show (match l.insertParsed g name text with
      | .ok l' => l'
      | .error _ => l) = l
    rw [he]
  · intro gs hgs
    unfold LabelLibrary.seed
    rw [hgs]
    refine ⟨_, rfl, fun a => ?_⟩
    rw [LabelLibrary.get?_ofList_entries]
    simp only [l, hname]

/-- Groups whose names differ in case or are one of the two words, a name that is replaced, a call
that fails, and requests in which the words come between names. -/
theorem select_seed_words :
    let xs : List Addition :=
      [.insert "ROM" "OLD" 0x0001, .insertParsed "rom" "LOW" "$0001",
        .insertParsed "ROM" "NEW" " 0x1 ", .insert "None" "TWO" 0x0002]
    let l := LabelLibrary.ofAdditions xs
    let requests := ["ROM", "nONE", "ALL", "rom"]
    LabelLibrary.ofAdditions (xs ++ [.insertParsed "ROM" "BAD" "FDED"]) = l ∧
      (∀ n ∈ requests, l.Stands n) ∧ l.select requests = .ok ["ROM", "None", "rom"] ∧
      LabelLibrary.FirstOccurrences ["ROM", "None", "ROM", "rom", "rom"] ["ROM", "None", "rom"] ∧
      ∃ m, l.seed requests = .ok m ∧ m.get? 0x0001 = some "NEW" ∧ m.get? 0x0002 = some "TWO" ∧
        m.get? 0x0003 = none := by
  intro xs l requests
  obtain ⟨-, -, hfail, -, hselect, -, hseed⟩ := select_seed xs requests
  have hnames : l.names = ["None", "ROM", "rom"] := by cbv
  have hbad : l.insertParsed "ROM" "BAD" "FDED" = .error (.invalidAddress "FDED") := by cbv
  have hgroups : l.select requests = .ok ["ROM", "None", "rom"] := by cbv
  have hupper : "ROM".toLower = "rom" := by cbv
  have hlower : "rom".toLower = "rom" := by cbv
  have hnone : "nONE".toLower = "none" := by cbv
  have hall : "ALL".toLower = "all" := by cbv
  have hrequests : requests.flatMap (LabelLibrary.groupsOf l.names) =
      ["ROM", "None", "ROM", "rom", "rom"] := by
    simp [requests, LabelLibrary.groupsOf, hnames, hupper, hlower, hnone, hall]
  have hstands : ∀ n ∈ requests, l.Stands n := by
    simp [requests, LabelLibrary.Stands, hnames, hnone, hall]
  obtain ⟨gs, hgs, hfirst⟩ := hselect hstands
  obtain rfl := Except.ok.inj (hgs.symm.trans hgroups)
  obtain ⟨m, hm, hget⟩ := hseed _ hgroups
  rw [hrequests] at hfirst
  exact ⟨hfail _ _ _ _ hbad, hstands, hgroups, hfirst, m, hm, (hget _).trans rfl,
    (hget _).trans rfl, (hget _).trans rfl⟩

end Disassembly
